import Mathlib.Data.Finset.Card
import ExportIndex.Resolution

/-!
What settling a resource can do. A pass carries out the statements of stored
resources and of the containers that are assigned as a whole export; it never
looks at any other container. `Rules` lists, case by case, how the pass before
and after one statement may be related, and `settle_obeys` says that a relation
with these rules holds across all statements of a resource, `visitWithin_obeys`
that it holds across a visit. Everything else that is shown about a pass is an
instance of these two.
-/
namespace ExportIndex

namespace Pass

theorem owned_put (pass : Pass) (place p : Place) (ds : List Declaration) :
    (pass.put place ds).owned p = if p = place then ds else pass.owned p := rfl

@[simp] theorem owned_put_self (pass : Pass) (place : Place) (ds : List Declaration) :
    (pass.put place ds).owned place = ds := by simp [owned_put]

theorem owned_put_of_ne {place p : Place} (other : p ≠ place) (pass : Pass)
    (ds : List Declaration) : (pass.put place ds).owned p = pass.owned p := by
  simp [owned_put, other]

@[simp] theorem owned_give_self (pass : Pass) (place : Place) (ds : List Declaration) :
    (pass.give place ds).owned place = pass.owned place ++ ds := by simp [give]

theorem owned_give_of_ne {place p : Place} (other : p ≠ place) (pass : Pass)
    (ds : List Declaration) : (pass.give place ds).owned p = pass.owned p :=
  owned_put_of_ne other pass _

@[simp] theorem owned_mark (pass : Pass) (key : String) :
    (pass.mark key).owned = pass.owned := rfl

@[simp] theorem done_put (pass : Pass) (place : Place) (ds : List Declaration) :
    (pass.put place ds).done = pass.done := rfl

@[simp] theorem done_give (pass : Pass) (place : Place) (ds : List Declaration) :
    (pass.give place ds).done = pass.done := rfl

@[simp] theorem done_mark (pass : Pass) (key : String) :
    (pass.mark key).done = key :: pass.done := rfl

end Pass

namespace Place

@[simp] theorem key_top (key : String) : (top key).key = key := rfl

@[simp] theorem down_top (key : String) : (top key).down = [] := rfl

@[simp] theorem key_child (p : Place) (i : Nat) : (p.child i).key = p.key := rfl

@[simp] theorem down_child (p : Place) (i : Nat) : (p.child i).down = p.down ++ [i] := rfl

theorem ne_top_of_nested {p : Place} (nested : p.down ≠ []) (key : String) : p ≠ top key := by
  intro eq
  exact nested (eq ▸ rfl)

theorem top_ne_of_key_ne {p : Place} {key : String} (other : p.key ≠ key) : top key ≠ p := by
  intro eq
  exact other (eq ▸ rfl)

end Place

namespace Export

def taken : Export → List Declaration → List Declaration
  | .all _ _, ds => ds
  | .named _ specifiers _, ds => Resolution.chosen specifiers ds
  | .assigned _ _, _ => []

def left : Export → List Declaration → List Declaration
  | .all _ _, _ => []
  | .named _ specifiers _, ds => Resolution.unchosen specifiers ds
  | .assigned _ _, ds => ds

theorem left_sublist (e : Export) (ds : List Declaration) : (e.left ds).Sublist ds := by
  cases e with
  | all source span => exact List.nil_sublist ds
  | named source specifiers span => exact List.filter_sublist
  | assigned identifier span => exact List.Sublist.refl ds

theorem exists_assigned {es : List Export} {identifier : String}
    (listed : identifier ∈ es.filterMap assigned?) :
    ∃ span, .assigned identifier span ∈ es := by
  obtain ⟨e, member, found⟩ := List.mem_filterMap.mp listed
  cases e with
  | all source span => simp [assigned?] at found
  | named source specifiers span => simp [assigned?] at found
  | assigned other span =>
    obtain rfl : other = identifier := by simpa [assigned?] using found
    exact ⟨span, member⟩

end Export

def Pass.carry (pass : Pass) (e : Export) (key : String) (place : Place) : Pass :=
  (pass.put (.top key) (e.left (pass.owned (.top key)))).give place
    (e.taken (pass.owned (.top key)))

namespace Pass

@[simp] theorem done_carry (pass : Pass) (e : Export) (key : String) (place : Place) :
    (pass.carry e key place).done = pass.done := rfl

theorem owned_carry_target {key : String} {place : Place} (other : place ≠ .top key)
    (pass : Pass) (e : Export) :
    (pass.carry e key place).owned (.top key) = e.left (pass.owned (.top key)) := by
  rw [carry, owned_give_of_ne (Ne.symm other), owned_put_self]

theorem owned_carry_of_ne {key : String} {place p : Place} (target : p ≠ .top key)
    (receiver : p ≠ place) (pass : Pass) (e : Export) :
    (pass.carry e key place).owned p = pass.owned p := by
  rw [carry, owned_give_of_ne receiver, owned_put_of_ne target]

end Pass

def Resource.Assigns (r : Resource) (i : Nat) (inner : Resource) : Prop :=
  r.resources[i]? = some inner ∧ ∃ name, inner.name? = some name ∧ name ∈ r.assignedNames

/-- The places whose statements a pass carries out: the stored resources, and the containers
assigned in a resource at such a place. -/
inductive Store.Live (s : Store) : Place → Resource → Prop where
  | stored {key : String} {r : Resource} (found : s.get? key = some r) : Live s (.top key) r
  | inside {p : Place} {r inner : Resource} {i : Nat} (outer : Live s p r)
      (assigned : r.Assigns i inner) : Live s (p.child i) inner

theorem Store.contains_iff_exists {s : Store} {key : String} :
    s.contains key = true ↔ ∃ r, s.get? key = some r := Option.isSome_iff_exists

theorem Store.length_keys (s : Store) : s.keys.length = s.size := List.length_map _

namespace Resolution

variable {l : Layout} {s : Store}

theorem target?_eq_some_iff {place : Place} {file : Option String} {source key : String} :
    target? l s place file source = some key ↔
      l.targetKey file source = key ∧ place ≠ .top key ∧ s.contains key = true := by
  unfold target?
  by_cases skipped : place = .top (l.targetKey file source) ∨
      s.contains (l.targetKey file source) = false
  · simp only [skipped, ↓reduceIte, reduceCtorEq, false_iff]
    rintro ⟨rfl, other, held⟩
    rcases skipped with same | absent
    · exact other same
    · simp [absent] at held
  · simp only [skipped, ↓reduceIte, Option.some.injEq]
    constructor
    · rintro rfl
      simpa using skipped
    · intro found
      exact found.1

section Statements

variable {visit : String → Pass → Pass}

theorem follow_of_source {e : Export} {source : String} (named : e.source? = some source)
    (empty : String → Pass → List Declaration × Pass) (place : Place) (file : Option String)
    (pass : Pass) :
    follow l s visit empty place file pass e =
      match target? l s place file source with
      | none => pass
      | some key => (visit key pass).carry e key place := by
  cases e with
  | all other span =>
    obtain rfl : other = source := by simpa [Export.source?] using named
    simp only [follow]
    cases target? l s place file other with
    | none => rfl
    | some key => rfl
  | named other specifiers span =>
    obtain rfl : other = some source := by simpa [Export.source?] using named
    simp only [follow]
    cases target? l s place file source with
    | none => rfl
    | some key => rfl
  | assigned identifier span => simp [Export.source?] at named

/-- How the pass before and after some statements at a place may be related. In `R p a ds b`
the pass went from `a` to `b`, and `ds` were taken out of containers and not yet given on. -/
structure Rules (l : Layout) (s : Store) (visit : String → Pass → Pass)
    (R : Place → Pass → List Declaration → Pass → Prop) : Prop where
  rest (p : Place) (a : Pass) : R p a [] a
  next {p : Place} {a b c : Pass} {ds es : List Declaration} (first : R p a ds b)
    (second : R p b es c) : R p a (ds ++ es) c
  carried {p : Place} {r : Resource} {e : Export} {source key : String} (live : s.Live p r)
    (statement : e ∈ r.exports) (named : e.source? = some source)
    (found : target? l s p r.path? source = some key) (a : Pass) :
    R p a [] ((visit key a).carry e key p)
  renamed {p : Place} {r : Resource} {specifiers : List Specifier} {span : Option Span}
    (live : s.Live p r) (statement : .named none specifiers span ∈ r.exports) (a : Pass) :
    R p a [] (a.put p (rename specifiers (a.owned p)))
  drained {p : Place} {r inner : Resource} {i : Nat} {a b : Pass} (live : s.Live p r)
    (assigned : r.Assigns i inner)
    (settled : R (p.child i)
      (a.put (p.child i) (retain inner.localNames (a.owned (p.child i)))) [] b) :
    R p a ((b.owned (p.child i)).filter Declaration.isVisible) (b.put (p.child i) [])
  received {p : Place} {r : Resource} {a b : Pass} {ds : List Declaration} (live : s.Live p r)
    (taken : R p a ds b) : R p a [] (b.give p ds)

variable {R : Place → Pass → List Declaration → Pass → Prop}

theorem Rules.foldl_obeys (rules : Rules l s visit R) {p : Place} {f : Pass → Export → Pass}
    {es : List Export} (each : ∀ e ∈ es, ∀ a, R p a [] (f a e)) (a : Pass) :
    R p a [] (es.foldl f a) := by
  induction es generalizing a with
  | nil => exact rules.rest p a
  | cons e es ih =>
    have first := each e List.mem_cons_self a
    have others := ih (fun e later => each e (List.mem_cons_of_mem _ later)) (f a e)
    exact rules.next first others

theorem Rules.follow_obeys (rules : Rules l s visit R) {p : Place} {r : Resource}
    (live : s.Live p r) {empty : String → Pass → List Declaration × Pass}
    (emptied : ∀ identifier ∈ r.assignedNames, ∀ a,
      R p a (empty identifier a).1 (empty identifier a).2)
    {e : Export} (statement : e ∈ r.exports) (a : Pass) :
    R p a [] (follow l s visit empty p r.path? a e) := by
  cases named : e.source? with
  | some source =>
    rw [follow_of_source named]
    cases found : target? l s p r.path? source with
    | none => exact rules.rest p a
    | some key => exact rules.carried live statement named found a
  | none =>
    cases e with
    | all source span => simp [Export.source?] at named
    | named source specifiers span =>
      obtain rfl : source = none := named
      exact rules.renamed live statement a
    | assigned identifier span =>
      have listed : identifier ∈ r.assignedNames :=
        List.mem_filterMap.mpr ⟨_, statement, rfl⟩
      exact rules.received live (emptied identifier listed a)

theorem drop_eq_cons {rs rest : List Resource} {r : Resource} {i : Nat}
    (held : rs.drop i = r :: rest) : rs[i]? = some r ∧ rs.drop (i + 1) = rest := by
  constructor
  · have head := congrArg (·[0]?) held
    simpa using head
  · rw [← List.tail_drop, held, List.tail_cons]

mutual

theorem Rules.settle_obeys (rules : Rules l s visit R) : ∀ (r : Resource) {p : Place},
    s.Live p r → ∀ a, R p a [] (settle l s visit p r a)
  | ⟨kind, declarations, exports, imports, usages, resources, span⟩, p, live, a => by
    rw [settle]
    refine rules.foldl_obeys (fun e statement a => ?_) a
    refine rules.follow_obeys live (fun identifier listed a => ?_) statement a
    exact rules.drain_obeys resources live rfl listed a

theorem Rules.drain_obeys (rules : Rules l s visit R) : ∀ (rs : List Resource) {p : Place}
    {outer : Resource} {i : Nat} {identifier : String}, s.Live p outer →
    outer.resources.drop i = rs → identifier ∈ outer.assignedNames → ∀ a,
    R p a (drain l s visit p i rs identifier a).1 (drain l s visit p i rs identifier a).2
  | [], p, outer, i, identifier, live, held, listed, a => by
    rw [drain]
    exact rules.rest p a
  | r :: rest, p, outer, i, identifier, live, held, listed, a => by
    obtain ⟨position, others⟩ := drop_eq_cons held
    rw [drain]
    split
    · rename_i called
      have assigned : outer.Assigns i r := ⟨position, identifier, called, listed⟩
      have inner := rules.settle_obeys r (live.inside assigned)
        (a.put (p.child i) (retain r.localNames (a.owned (p.child i))))
      exact rules.next (rules.drained live assigned inner)
        (rules.drain_obeys rest live others listed _)
    · exact rules.drain_obeys rest live others listed a

end

theorem settle_eq_foldl (p : Place) (r : Resource) (a : Pass) :
    settle l s visit p r a =
      r.exports.foldl (follow l s visit (drain l s visit p 0 r.resources) p r.path?) a := by
  cases r
  rw [settle]
  rfl

theorem Rules.statements_obey (rules : Rules l s visit R) {p : Place} {r : Resource}
    (live : s.Live p r) {es : List Export} (part : es ⊆ r.exports) (a : Pass) :
    R p a [] (es.foldl (follow l s visit (drain l s visit p 0 r.resources) p r.path?) a) := by
  refine rules.foldl_obeys (fun e member a => ?_) a
  refine rules.follow_obeys live (fun identifier listed a => ?_) (part member) a
  exact rules.drain_obeys r.resources live rfl listed a

end Statements

/-- Across a visit `V` holds if it holds when nothing happens, if it has what the statements of
the visited resource give, and if the rules can rely on it for the visits inside. -/
theorem visitWithin_obeys {R : Place → Pass → List Declaration → Pass → Prop}
    {V : String → Pass → Pass → Prop}
    (rules : ∀ visit, (∀ key a, s.contains key = true → V key a (visit key a)) →
      Rules l s visit R)
    (rest : ∀ key a, V key a a)
    (settled : ∀ key r a b, s.get? key = some r → key ∉ a.done →
      R (.top key) (a.mark key) [] b → V key a b)
    (bound : Nat) : ∀ key a, s.contains key = true → V key a (visitWithin l s bound key a) := by
  induction bound with
  | zero =>
    intro key a _
    exact rest key a
  | succ bound ih =>
    intro key a held
    rw [visitWithin]
    split
    · exact rest key a
    · rename_i fresh
      obtain ⟨r, found⟩ := Option.isSome_iff_exists.mp held
      change s.get? key = some r at found
      rw [found]
      have inner := (rules _ ih).settle_obeys r (.stored found) (a.mark key)
      exact settled key r a _ found fresh inner

theorem visitWithin_of_done {bound : Nat} {key : String} {a : Pass} (early : key ∈ a.done) :
    visitWithin l s bound key a = a := by
  cases bound with
  | zero => rw [visitWithin]
  | succ bound => rw [visitWithin, if_pos early]

theorem done_rules {visit : String → Pass → Pass}
    (visits : ∀ key a, s.contains key = true → a.done ⊆ (visit key a).done) :
    Rules l s visit fun _ a _ b => a.done ⊆ b.done where
  rest _ a := List.Subset.refl a.done
  next first second := List.Subset.trans first second
  carried _ _ _ found a := visits _ a (target?_eq_some_iff.mp found).2.2
  renamed _ _ a := List.Subset.refl a.done
  drained _ _ settled := settled
  received _ taken := taken

theorem done_subset_visitWithin (bound : Nat) (key : String) (a : Pass)
    (held : s.contains key = true) : a.done ⊆ (visitWithin l s bound key a).done := by
  refine visitWithin_obeys (V := fun _ a b => a.done ⊆ b.done) (fun _ => done_rules)
    (fun _ a => List.Subset.refl a.done) ?_ bound key a held
  intro key r a b found fresh settled k earlier
  exact settled (List.mem_cons_of_mem key earlier)

def undone (s : Store) (a : Pass) : Nat := (s.keys.toFinset \ a.done.toFinset).card

theorem undone_le_of_subset {a b : Pass} (further : a.done ⊆ b.done) :
    undone s b ≤ undone s a := by
  refine Finset.card_le_card (Finset.sdiff_subset_sdiff subset_rfl ?_)
  intro key earlier
  exact List.mem_toFinset.mpr (further (List.mem_toFinset.mp earlier))

theorem undone_le_size (a : Pass) : undone s a ≤ s.size := by
  have subset := Finset.card_le_card (Finset.sdiff_subset (s := s.keys.toFinset)
    (t := a.done.toFinset))
  have bound := List.toFinset_card_le s.keys
  have size := s.length_keys
  unfold undone
  omega

theorem mem_undone {a : Pass} {key : String} (held : s.contains key = true)
    (fresh : key ∉ a.done) : key ∈ s.keys.toFinset \ a.done.toFinset := by
  have stored : key ∈ s.keys := (s.resources.contains_iff key).mp held
  simpa [fresh] using stored

theorem undone_mark_lt {a : Pass} {key : String} (held : s.contains key = true)
    (fresh : key ∉ a.done) : undone s (a.mark key) < undone s a := by
  have member := mem_undone held fresh
  unfold undone
  rw [Pass.done_mark, List.toFinset_cons, Finset.sdiff_insert]
  exact Finset.card_erase_lt_of_mem member

/-- Induction over visits whose bound is never met: a key is done already, or its resource is
settled with few enough keys left for the visits inside. -/
theorem visitWithin_induct {P : String → Pass → Pass → Prop}
    (early : ∀ key a, key ∈ a.done → P key a a)
    (entered : ∀ bound key r a, s.get? key = some r → key ∉ a.done →
      undone s (a.mark key) ≤ bound →
      (∀ t b, s.contains t = true → undone s b ≤ bound → P t b (visitWithin l s bound t b)) →
      P key a (settle l s (visitWithin l s bound) (.top key) r (a.mark key)))
    (bound : Nat) : ∀ key a, s.contains key = true → undone s a ≤ bound →
      P key a (visitWithin l s bound key a) := by
  induction bound with
  | zero =>
    intro key a held few
    apply early
    by_contra fresh
    have fewer := undone_mark_lt held fresh
    omega
  | succ bound ih =>
    intro key a held few
    rw [visitWithin]
    split
    · rename_i done
      exact early key a done
    · rename_i fresh
      obtain ⟨r, stored⟩ := Store.contains_iff_exists.mp held
      have fewer := undone_mark_lt held fresh
      rw [stored]
      exact entered bound key r a stored fresh (by omega) ih

/-- The bound on nested visits is never met: a level is entered with a key that was not done. -/
theorem mem_done_visitWithin {bound : Nat} {key : String} {a : Pass}
    (held : s.contains key = true) (enough : undone s a ≤ bound) :
    key ∈ (visitWithin l s bound key a).done := by
  by_cases early : key ∈ a.done
  · exact done_subset_visitWithin bound key a held early
  · have positive : 0 < undone s a := Finset.card_pos.mpr ⟨key, mem_undone held early⟩
    obtain ⟨r, found⟩ := Option.isSome_iff_exists.mp held
    change s.get? key = some r at found
    cases bound with
    | zero => omega
    | succ bound =>
      have rules := done_rules (l := l) (done_subset_visitWithin (l := l) (s := s) bound)
      have inner := rules.settle_obeys r (.stored found) (a.mark key)
      rw [visitWithin, if_neg early, found]
      exact inner List.mem_cons_self

theorem mem_order {key : String} : key ∈ order s ↔ s.contains key = true := by
  rw [order, (StableSort.sort_perm _ _).mem_iff]
  exact (s.resources.contains_iff key).symm

theorem settleAll_keeps {P : Pass → Prop} {a : Pass} (start : P a)
    (visits : ∀ key b, s.contains key = true → P b → P (visit l s key b)) :
    P (settleAll l s a) := by
  unfold settleAll
  refine List.foldlRecOn (order s) _ start ?_
  intro b kept key listed
  exact visits key b (mem_order.mp listed) kept

theorem mem_done_settleAll {key : String} (held : s.contains key = true) (a : Pass) :
    key ∈ (settleAll l s a).done := by
  obtain ⟨before, after, split⟩ := List.append_of_mem (mem_order.mpr held)
  have stored : ∀ k ∈ after, s.contains k = true := fun k later =>
    mem_order.mp (split ▸ List.mem_append_right _ (List.mem_cons_of_mem key later))
  unfold settleAll
  rw [split, List.foldl_append, List.foldl_cons]
  refine List.foldlRecOn (motive := fun b : Pass => key ∈ b.done) after _
    (mem_done_visitWithin held (undone_le_size _)) ?_
  intro b kept k later
  exact done_subset_visitWithin s.size k b (stored k later) kept

end Resolution

end ExportIndex
