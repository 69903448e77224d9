import ExportIndex.Proofs.Settling

/-!
Two passes side by side. Both carry out the statements of the same resource, but
their stores may differ in other resources, and so may the way they visit a
stored resource. `Tandem` lists what has to be known about one statement for the
two passes to stay related, and `Tandem.settle_related` says that they then stay
related across all statements of a resource. `Lockstep` is the case in which the
passes agree on everything under the keys in question.
-/
namespace ExportIndex.Resolution

/-- What keeps two passes related. In `E p a b` the passes `a` and `b` are at the same point of
the statements at `p`. They agree on `p` itself and find the same targets; a visit keeps them
related and leaves them agreed on what was visited; and they enter a container of `p`, and leave
it again, together. -/
structure Tandem (l : Layout) (s s' : Store) (visit visit' : String → Pass → Pass)
    (E : Place → Pass → Pass → Prop) : Prop where
  owned {p : Place} {a b : Pass} (related : E p a b) : b.owned p = a.owned p
  put {p : Place} {a b : Pass} (related : E p a b) (q : Place) (ds : List Declaration) :
    E p (a.put q ds) (b.put q ds)
  target {p : Place} {r : Resource} {e : Export} {source : String} {a b : Pass}
    (related : E p a b) (live : s.Live p r) (statement : e ∈ r.exports)
    (named : e.source? = some source) :
    target? l s' p r.path? source = target? l s p r.path? source
  visits {p : Place} {r : Resource} {e : Export} {source key : String} {a b : Pass}
    (related : E p a b) (live : s.Live p r) (statement : e ∈ r.exports)
    (named : e.source? = some source) (found : target? l s p r.path? source = some key) :
    E p (visit key a) (visit' key b) ∧
      (visit' key b).owned (.top key) = (visit key a).owned (.top key)
  enters {p : Place} {r inner : Resource} {i : Nat} {a b : Pass} (related : E p a b)
    (live : s.Live p r) (assigned : r.Assigns i inner) :
    E (p.child i) (a.put (p.child i) (retain inner.localNames (a.owned (p.child i))))
      (b.put (p.child i) (retain inner.localNames (b.owned (p.child i))))
  leaves {p : Place} {i : Nat} {a b : Pass} (related : E (p.child i) a b) : E p a b

namespace Tandem

variable {l : Layout} {s s' : Store} {visit visit' : String → Pass → Pass}
  {E : Place → Pass → Pass → Prop}

theorem give (steps : Tandem l s s' visit visit' E) {p : Place} {a b : Pass} (related : E p a b)
    (ds : List Declaration) : E p (a.give p ds) (b.give p ds) := by
  unfold Pass.give
  rw [steps.owned related]
  apply steps.put related

theorem carry (steps : Tandem l s s' visit visit' E) {p : Place} {a b : Pass}
    (related : E p a b) {key : String} (same : b.owned (.top key) = a.owned (.top key))
    (e : Export) : E p (a.carry e key p) (b.carry e key p) := by
  unfold Pass.carry
  rw [same]
  apply steps.give
  apply steps.put related

theorem follow_related (steps : Tandem l s s' visit visit' E) {p : Place} {r : Resource}
    (live : s.Live p r) {empty empty' : String → Pass → List Declaration × Pass}
    (emptied : ∀ identifier ∈ r.assignedNames, ∀ a b, E p a b →
      (empty' identifier b).1 = (empty identifier a).1 ∧
        E p (empty identifier a).2 (empty' identifier b).2)
    {e : Export} (statement : e ∈ r.exports) {a b : Pass} (related : E p a b) :
    E p (follow l s visit empty p r.path? a e) (follow l s' visit' empty' p r.path? b e) := by
  cases named : e.source? with
  | some source =>
    rw [follow_of_source named, follow_of_source named, steps.target related live statement named]
    cases found : target? l s p r.path? source with
    | none => exact related
    | some key =>
      obtain ⟨visited, same⟩ := steps.visits related live statement named found
      exact steps.carry visited same e
  | none =>
    cases e with
    | all source span => simp [Export.source?] at named
    | named source specifiers span =>
      obtain rfl : source = none := named
      simp only [follow]
      rw [steps.owned related]
      apply steps.put related
    | assigned identifier span =>
      have listed : identifier ∈ r.assignedNames :=
        List.mem_filterMap.mpr ⟨_, statement, rfl⟩
      obtain ⟨same, after⟩ := emptied identifier listed a b related
      simp only [follow]
      rw [same]
      exact steps.give after _

mutual

theorem settle_related (steps : Tandem l s s' visit visit' E) : ∀ (r : Resource) {p : Place},
    s.Live p r → ∀ a b, E p a b →
      E p (settle l s visit p r a) (settle l s' visit' p r b)
  | ⟨kind, declarations, exports, imports, usages, resources, span⟩, p, live, a, b, related => by
    rw [settle, settle]
    apply List.foldl_rel related
    intro e statement a b related
    apply steps.follow_related live _ statement related
    intro identifier listed a b related
    exact steps.drain_related resources live rfl listed a b related

theorem drain_related (steps : Tandem l s s' visit visit' E) : ∀ (rs : List Resource)
    {p : Place} {outer : Resource} {i : Nat} {identifier : String}, s.Live p outer →
    outer.resources.drop i = rs → identifier ∈ outer.assignedNames → ∀ a b, E p a b →
      (drain l s' visit' p i rs identifier b).1 = (drain l s visit p i rs identifier a).1 ∧
        E p (drain l s visit p i rs identifier a).2 (drain l s' visit' p i rs identifier b).2
  | [], p, outer, i, identifier, live, held, listed, a, b, related => by
    rw [drain, drain]
    exact ⟨rfl, related⟩
  | r :: rest, p, outer, i, identifier, live, held, listed, a, b, related => by
    obtain ⟨position, others⟩ := drop_eq_cons held
    rw [drain, drain]
    by_cases called : r.name? = some identifier
    · have assigned : outer.Assigns i r := ⟨position, identifier, called, listed⟩
      simp only [if_pos called]
      have settled := steps.settle_related r (live.inside assigned) _ _
        (steps.enters related live assigned)
      obtain ⟨same, after⟩ := steps.drain_related rest live others listed _ _
        (steps.put (steps.leaves settled) (p.child i) [])
      rw [same, steps.owned settled]
      exact ⟨rfl, after⟩
    · rw [if_neg called, if_neg called]
      exact steps.drain_related rest live others listed a b related

end

end Tandem

/-- What keeps two passes related. They agree on the places under the keys `near`, they find the
same targets there, and visits of these targets keep them related. -/
structure Lockstep (l : Layout) (s s' : Store) (visit visit' : String → Pass → Pass)
    (near : String → Prop) (E : Pass → Pass → Prop) : Prop where
  owned {a b : Pass} {p : Place} (related : E a b) (close : near p.key) : b.owned p = a.owned p
  put {a b : Pass} (related : E a b) (p : Place) (ds : List Declaration) :
    E (a.put p ds) (b.put p ds)
  target {p : Place} {r : Resource} {e : Export} {source : String} (close : near p.key)
    (live : s.Live p r) (statement : e ∈ r.exports) (named : e.source? = some source) :
    target? l s' p r.path? source = target? l s p r.path? source
  visits {p : Place} {r : Resource} {e : Export} {source key : String} {a b : Pass}
    (close : near p.key) (live : s.Live p r) (statement : e ∈ r.exports)
    (named : e.source? = some source) (found : target? l s p r.path? source = some key)
    (related : E a b) : near key ∧ E (visit key a) (visit' key b)

namespace Lockstep

variable {l : Layout} {s s' : Store} {visit visit' : String → Pass → Pass}
  {near : String → Prop} {E : Pass → Pass → Prop}

theorem tandem (steps : Lockstep l s s' visit visit' near E) :
    Tandem l s s' visit visit' fun p a b => near p.key ∧ E a b where
  owned related := steps.owned related.2 related.1
  put related q ds := ⟨related.1, steps.put related.2 q ds⟩
  target related live statement named := steps.target related.1 live statement named
  visits related live statement named found := by
    obtain ⟨close, visited⟩ := steps.visits related.1 live statement named found related.2
    exact ⟨⟨related.1, visited⟩, steps.owned visited close⟩
  enters {p r inner i a b} related live assigned := by
    have same : b.owned (p.child i) = a.owned (p.child i) := steps.owned related.2 related.1
    rw [same]
    exact ⟨related.1, steps.put related.2 _ _⟩
  leaves related := related

theorem settle_related (steps : Lockstep l s s' visit visit' near E) (r : Resource) {p : Place}
    (close : near p.key) (live : s.Live p r) (a b : Pass) (related : E a b) :
    E (settle l s visit p r a) (settle l s' visit' p r b) :=
  (steps.tandem.settle_related r live a b ⟨close, related⟩).2

end Lockstep

end ExportIndex.Resolution
