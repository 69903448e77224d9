import ExportIndex.Proofs.Evaluation

/-!
Where re-exports do not compete, a pass computes what each stored resource comes
to on its own. The stored resources form a forest when no stored resource is
taken from by two statements and no statements lead round in a cycle. A visit
then works inside one tree: it leaves its key with what that resource comes to
and everything below with what the one statement above has left of it, and it
does not touch the rest.
-/
namespace ExportIndex

/-- No container is assigned, every stored resource is the target of at most one statement, and
the statements lead round in no cycle. -/
structure Store.Forest (l : Layout) (s : Store) : Prop where
  plain : ∀ key r, s.get? key = some r → ∀ i inner, ¬ r.Assigns i inner
  apart : ∀ key r, s.get? key = some r → (r.exports.filterMap (s.supplier? l key r.path?)).Nodup
  single : ∀ key taker other, s.Draws l taker key → s.Draws l other key → taker = other
  acyclic : ∀ key, ¬ Relation.TransGen (s.Draws l) key key

theorem eq_of_nodup_filterMap {α β : Type} {f : α → Option β} {xs : List α}
    (distinct : (xs.filterMap f).Nodup) {x y : α} {z : β} (first : x ∈ xs) (second : y ∈ xs)
    (ofFirst : f x = some z) (ofSecond : f y = some z) : x = y := by
  induction xs with
  | nil => cases first
  | cons a xs ih =>
    rcases List.mem_cons.mp first with rfl | later
    · rcases List.mem_cons.mp second with rfl | later
      · rfl
      · rw [List.filterMap_cons_some ofFirst, List.nodup_cons] at distinct
        exact absurd (List.mem_filterMap.mpr ⟨y, later, ofSecond⟩) distinct.1
    · rcases List.mem_cons.mp second with rfl | later'
      · rw [List.filterMap_cons_some ofSecond, List.nodup_cons] at distinct
        exact absurd (List.mem_filterMap.mpr ⟨x, later, ofFirst⟩) distinct.1
      · apply ih _ later later'
        exact ((List.sublist_cons_self a xs).filterMap f).nodup distinct

namespace Store.Forest

open Relation

variable {l : Layout} {s : Store}

theorem not_draws_below (forest : s.Forest l) {taker key k : String} (draws : s.Draws l taker key)
    (below : TransGen (s.Draws l) key k) : ¬ s.Draws l taker k := by
  intro again
  obtain ⟨other, reached, last⟩ := TransGen.tail'_iff.mp below
  rw [forest.single k other taker last again] at reached
  exact forest.acyclic taker (TransGen.head' draws reached)

theorem disjoint (forest : s.Forest l) {taker key other k : String}
    (draws : s.Draws l taker key) (also : s.Draws l taker other) (differ : key ≠ other)
    (below : ReflTransGen (s.Draws l) key k) : ¬ ReflTransGen (s.Draws l) other k := by
  intro below'
  have unique : Relator.RightUnique (Function.swap (s.Draws l)) := fun k t t' h h' =>
    forest.single k t t' h h'
  rcases ReflTransGen.total_of_right_unique unique below.swap below'.swap with up | up
  · rcases reflTransGen_iff_eq_or_transGen.mp up.swap with same | further
    · exact differ same
    · exact forest.not_draws_below also further draws
  · rcases reflTransGen_iff_eq_or_transGen.mp up.swap with same | further
    · exact differ same.symm
    · exact forest.not_draws_below draws further also

theorem takes_unique (forest : s.Forest l) {taker other key : String} {e e' : Export}
    (takes : s.Takes l taker e key) (also : s.Takes l other e' key) : taker = other ∧ e = e' := by
  obtain rfl := forest.single key taker other ⟨e, takes⟩ ⟨e', also⟩
  obtain ⟨r, stored, statement, supplied⟩ := takes
  obtain ⟨r', stored', statement', supplied'⟩ := also
  obtain rfl := Option.some.inj (stored.symm.trans stored')
  exact ⟨rfl, eq_of_nodup_filterMap (forest.apart taker r stored) statement statement' supplied
    supplied'⟩

end Store.Forest

namespace Resolution

open Relation

variable {l : Layout} {s : Store}

theorem drain_of_absent {visit : String → Pass → Pass} {p : Place} {identifier : String}
    {rs : List Resource} (absent : ∀ r ∈ rs, r.name? ≠ some identifier) (i : Nat) (a : Pass) :
    drain l s visit p i rs identifier a = ([], a) := by
  induction rs generalizing i with
  | nil => rw [drain]
  | cons r rest ih =>
    rw [drain, if_neg (absent r List.mem_cons_self)]
    apply ih
    intro r later
    exact absent r (List.mem_cons_of_mem _ later)

def Same (a b : Pass) (key : String) : Prop :=
  b.owned (.top key) = a.owned (.top key) ∧ (key ∈ b.done ↔ key ∈ a.done)

theorem Same.trans {a b c : Pass} {key : String} (first : Same a b key) (second : Same b c key) :
    Same a c key :=
  ⟨second.1.trans first.1, second.2.trans first.2⟩

section Statements

variable (visit : String → Pass → Pass) {key : String} {r : Resource} {e : Export}

theorem follow_of_supplier {target : String}
    (supplied : s.supplier? l key r.path? e = some target)
    (empty : String → Pass → List Declaration × Pass) (a : Pass) :
    follow l s visit empty (.top key) r.path? a e =
      (visit target a).carry e target (.top key) := by
  obtain ⟨source, named, found⟩ := Store.supplier?_eq_some supplied
  rw [follow_of_source named, found]

theorem follow_of_no_supplier (value : String → List Declaration)
    (plain : ∀ i inner, ¬ r.Assigns i inner) (statement : e ∈ r.exports)
    (alone : s.supplier? l key r.path? e = none) (a : Pass) :
    let b := follow l s visit (drain l s visit (.top key) 0 r.resources) (.top key) r.path? a e
    b.done = a.done ∧ (∀ p, p ≠ .top key → b.owned p = a.owned p) ∧
      b.owned (.top key) = gather l s value key r.path? (a.owned (.top key)) e := by
  intro b
  rw [gather_of_no_supplier alone]
  cases e with
  | all source span =>
    rw [Store.supplier?_all] at alone
    simp [b, follow, alone]
  | named source specifiers span =>
    cases source with
    | none =>
      refine ⟨rfl, fun p other => Pass.owned_put_of_ne other a _, ?_⟩
      exact Pass.owned_put_self a _ _
    | some source =>
      rw [Store.supplier?_of_source rfl] at alone
      simp [b, follow, alone]
  | assigned identifier span =>
    have absent : ∀ inner ∈ r.resources, inner.name? ≠ some identifier := by
      intro inner held called
      obtain ⟨i, position⟩ := List.mem_iff_getElem?.mp held
      exact plain i inner ⟨position, identifier, called,
        List.mem_filterMap.mpr ⟨_, statement, rfl⟩⟩
    have drained : drain l s visit (.top key) 0 r.resources identifier a = ([], a) :=
      drain_of_absent absent 0 a
    simp only [b, follow, drained]
    refine ⟨rfl, fun p other => Pass.owned_give_of_ne other a _, ?_⟩
    simp

end Statements

section Walk

variable {base value : String → List Declaration}

/-- What a stored resource owns between visits. It has what it began with until it is settled,
then what it comes to, and in the end what the statement above it has left. -/
structure Steady (l : Layout) (s : Store) (base value : String → List Declaration) (a : Pass)
    (key : String) : Prop where
  fresh : key ∉ a.done → a.owned (.top key) = base key
  untaken : key ∉ a.done → ∀ taker, s.Draws l taker key → taker ∉ a.done
  whole : key ∈ a.done → (∀ taker, s.Draws l taker key → taker ∉ a.done) →
    a.owned (.top key) = value key
  rest : key ∈ a.done → ∀ taker e, s.Takes l taker e key → taker ∈ a.done →
    a.owned (.top key) = e.left (value key)

structure Ready (l : Layout) (s : Store) (base value : String → List Declaration) (a : Pass)
    (key : String) : Prop where
  fresh : key ∉ a.done → a.owned (.top key) = base key
  whole : key ∈ a.done → a.owned (.top key) = value key
  below : ∀ k, TransGen (s.Draws l) key k → Steady l s base value a k

structure Served (l : Layout) (s : Store) (base value : String → List Declaration) (key : String)
    (a b : Pass) : Prop where
  done : key ∈ b.done
  whole : b.owned (.top key) = value key
  below : ∀ k, TransGen (s.Draws l) key k → Steady l s base value b k
  others : ∀ k, ¬ ReflTransGen (s.Draws l) key k → Same a b k

theorem Steady.of_same {a b : Pass} {key : String} (steady : Steady l s base value a key)
    (same : Same a b key)
    (takers : ∀ taker, s.Draws l taker key → (taker ∈ b.done ↔ taker ∈ a.done)) :
    Steady l s base value b key where
  fresh late := by
    rw [same.1]
    exact steady.fresh (late ∘ same.2.mpr)
  untaken late taker draws := by
    rw [takers taker draws]
    exact steady.untaken (late ∘ same.2.mpr) taker draws
  whole done free := by
    rw [same.1]
    apply steady.whole (same.2.mp done)
    intro taker draws
    rw [← takers taker draws]
    exact free taker draws
  rest done taker e takes taken := by
    rw [same.1]
    exact steady.rest (same.2.mp done) taker e takes ((takers taker ⟨e, takes⟩).mp taken)

theorem Steady.of_agree {a b : Pass} {key : String} (steady : Steady l s base value a key)
    (owned : b.owned (.top key) = a.owned (.top key)) (done : b.done = a.done) :
    Steady l s base value b key := by
  apply steady.of_same
  · exact ⟨owned, by rw [done]⟩
  · intro taker _
    rw [done]

theorem Steady.of_taken (forest : s.Forest l) {a : Pass} {taker key : String} {e : Export}
    (takes : s.Takes l taker e key) (here : taker ∈ a.done) (done : key ∈ a.done)
    (owned : a.owned (.top key) = e.left (value key)) : Steady l s base value a key where
  fresh late := absurd done late
  untaken late := absurd done late
  whole _ free := absurd here (free taker ⟨e, takes⟩)
  rest _ other e' also _ := by
    obtain ⟨-, rfl⟩ := forest.takes_unique takes also
    exact owned

theorem Served.keeps {a b : Pass} {key k : String} (served : Served l s base value key a b)
    (outside : ¬ ReflTransGen (s.Draws l) key k) (steady : Steady l s base value a k) :
    Steady l s base value b k := by
  apply steady.of_same (served.others k outside)
  intro taker draws
  apply (served.others taker _).2
  intro inside
  exact outside (inside.tail draws)

/-- How far the statements of the resource under a key have come: it owns `ds`, and what it draws
on is served but for `later`. -/
structure Midway (l : Layout) (s : Store) (base value : String → List Declaration) (bound : Nat)
    (key : String) (a : Pass) (ds : List Declaration) (later : List String) (b : Pass) :
    Prop where
  few : undone s b ≤ bound
  done : key ∈ b.done
  owned : b.owned (.top key) = ds
  served : ∀ k, TransGen (s.Draws l) key k → (∀ t ∈ later, ¬ ReflTransGen (s.Draws l) t k) →
    Steady l s base value b k
  ready : ∀ t ∈ later, Ready l s base value b t
  others : ∀ k, ¬ ReflTransGen (s.Draws l) key k → Same a b k

namespace Midway

variable {bound : Nat} {key : String} {a b c : Pass} {ds : List Declaration} {later : List String}

theorem start (forest : s.Forest l) (few : undone s (a.mark key) ≤ bound)
    (fresh : key ∉ a.done) (ready : Ready l s base value a key)
    (all : ∀ t, t ∈ later ↔ s.Draws l key t) :
    Midway l s base value bound key a (base key) later (a.mark key) where
  few := few
  done := List.mem_cons_self
  owned := ready.fresh fresh
  served k below outside := by
    obtain ⟨t, draws, reached⟩ := TransGen.head'_iff.mp below
    exact absurd reached (outside t ((all t).mpr draws))
  ready t member := by
    have draws := (all t).mp member
    have steady := ready.below t (.single draws)
    have marked : ∀ k, k ≠ key → (k ∈ (a.mark key).done ↔ k ∈ a.done) := by
      intro k other
      rw [Pass.done_mark, List.mem_cons, or_iff_right other]
    have other : ∀ k, TransGen (s.Draws l) key k → k ≠ key := by
      rintro k below rfl
      exact forest.acyclic k below
    constructor
    · intro late
      exact steady.fresh (late ∘ (marked t (other t (.single draws))).mpr)
    · intro early
      apply steady.whole ((marked t (other t (.single draws))).mp early)
      intro taker also
      rw [forest.single t taker key also draws]
      exact fresh
    · intro k below
      have further : TransGen (s.Draws l) key k := .head draws below
      have same : Same a (a.mark key) k := ⟨rfl, marked k (other k further)⟩
      apply (ready.below k further).of_same same
      intro taker also
      apply marked
      -- the key draws on nothing that lies further down
      rintro rfl
      exact forest.not_draws_below draws below also
  others k outside := by
    refine ⟨rfl, ?_⟩
    rw [Pass.done_mark, List.mem_cons, or_iff_right]
    rintro rfl
    exact outside .refl

theorem alone (forest : s.Forest l) (midway : Midway l s base value bound key a ds later b)
    (draws : ∀ t ∈ later, s.Draws l key t) (done : c.done = b.done)
    (elsewhere : ∀ p, p ≠ .top key → c.owned p = b.owned p) :
    Midway l s base value bound key a (c.owned (.top key)) later c := by
  have same : ∀ k, k ≠ key → c.owned (.top k) = b.owned (.top k) := by
    intro k other
    apply elsewhere
    exact fun eq => other (congrArg Place.key eq)
  have below : ∀ k, TransGen (s.Draws l) key k → k ≠ key := by
    rintro k below rfl
    exact forest.acyclic k below
  constructor
  · unfold undone
    rw [done]
    exact midway.few
  · rw [done]
    exact midway.done
  · rfl
  · intro k under outside
    exact (midway.served k under outside).of_agree (same k (below k under)) done
  · intro t member
    have ready := midway.ready t member
    have own := same t (below t (.single (draws t member)))
    constructor
    · rw [done, own]
      exact ready.fresh
    · rw [done, own]
      exact ready.whole
    · intro k under
      have further : TransGen (s.Draws l) key k := .head (draws t member) under
      exact (ready.below k under).of_agree (same k (below k further)) done
  · intro k outside
    apply (midway.others k outside).trans
    refine ⟨same k fun eq => outside (eq ▸ .refl), by rw [done]⟩

theorem taking (forest : s.Forest l) {target : String} {e : Export}
    (midway : Midway l s base value bound key a ds (target :: later) b)
    (takes : s.Takes l key e target) (draws : ∀ t ∈ later, s.Draws l key t)
    (last : target ∉ later) (grown : b.done ⊆ c.done)
    (visited : Served l s base value target b c) :
    Midway l s base value bound key a (ds ++ e.taken (value target)) later
      (c.carry e target (.top key)) := by
  have draw : s.Draws l key target := ⟨e, takes⟩
  have back : ¬ ReflTransGen (s.Draws l) target key := fun reached =>
    forest.acyclic key (TransGen.head' draw reached)
  have other : Place.top key ≠ .top target := by
    intro eq
    obtain rfl : key = target := congrArg Place.key eq
    exact back .refl
  have below : ∀ k, TransGen (s.Draws l) key k → k ≠ key := by
    rintro k below rfl
    exact forest.acyclic k below
  have elsewhere : ∀ k, k ≠ key → k ≠ target →
      (c.carry e target (.top key)).owned (.top k) = c.owned (.top k) := by
    intro k notKey notTarget
    apply Pass.owned_carry_of_ne
    · exact fun eq => notTarget (congrArg Place.key eq)
    · exact fun eq => notKey (congrArg Place.key eq)
  have outer : ∀ k, k ≠ key → ¬ ReflTransGen (s.Draws l) target k →
      Same b (c.carry e target (.top key)) k := by
    intro k notKey outside
    obtain ⟨owned, done⟩ := visited.others k outside
    refine ⟨?_, done⟩
    rw [elsewhere k notKey (fun eq => outside (eq ▸ .refl)), owned]
  have steady : ∀ k, k ≠ key → k ≠ target → Steady l s base value c k →
      Steady l s base value (c.carry e target (.top key)) k := by
    intro k notKey notTarget steady
    exact steady.of_agree (elsewhere k notKey notTarget) rfl
  have separate : ∀ t ∈ later, ∀ k, ReflTransGen (s.Draws l) t k →
      ¬ ReflTransGen (s.Draws l) target k := by
    intro t member k reached
    apply forest.disjoint (draws t member) draw _ reached
    exact fun eq => last (eq ▸ member)
  constructor
  · exact Nat.le_trans (undone_le_of_subset grown) midway.few
  · exact grown midway.done
  · rw [Pass.carry, Pass.owned_give_self, Pass.owned_put_of_ne other,
      (visited.others key back).1, midway.owned, visited.whole]
  · intro k under outside
    rcases Classical.em (ReflTransGen (s.Draws l) target k) with inside | apart
    · rcases reflTransGen_iff_eq_or_transGen.mp inside with rfl | further
      · have here : key ∈ (c.carry e k (.top key)).done := grown midway.done
        have done : k ∈ (c.carry e k (.top key)).done := visited.done
        apply Steady.of_taken forest takes here done
        rw [Pass.owned_carry_target other, visited.whole]
      · exact steady k (below k under) (fun eq => forest.acyclic target (eq ▸ further))
          (visited.below k further)
    · apply steady k (below k under) (fun eq => apart (eq ▸ .refl))
      apply visited.keeps apart
      apply midway.served k under
      intro t member
      rcases List.mem_cons.mp member with rfl | member
      · exact apart
      · exact outside t member
  · intro t member
    have ready := midway.ready t (List.mem_cons_of_mem _ member)
    have notKey := below t (.single (draws t member))
    obtain ⟨owned, done⟩ := outer t notKey (separate t member t .refl)
    constructor
    · rw [done, owned]
      exact ready.fresh
    · rw [done, owned]
      exact ready.whole
    · intro k under
      have apart := separate t member k under.to_reflTransGen
      apply steady k (below k (.head (draws t member) under)) (fun eq => apart (eq ▸ .refl))
      exact visited.keeps apart (ready.below k under)
  · intro k outside
    apply (midway.others k outside).trans
    apply outer k fun eq => outside (eq ▸ .refl)
    intro reached
    exact outside (.head draw reached)

end Midway

theorem mem_suppliers {key t : String} {r : Resource} (stored : s.get? key = some r) :
    t ∈ r.exports.filterMap (s.supplier? l key r.path?) ↔ s.Draws l key t := by
  rw [List.mem_filterMap]
  constructor
  · intro ⟨e, statement, supplied⟩
    exact ⟨e, r, stored, statement, supplied⟩
  · intro ⟨e, r', stored', statement, supplied⟩
    obtain rfl := Option.some.inj (stored.symm.trans stored')
    exact ⟨e, statement, supplied⟩

theorem foldl_midway (forest : s.Forest l) {visit : String → Pass → Pass} {bound : Nat}
    {key : String} {r : Resource} (stored : s.get? key = some r)
    (grows : ∀ t b, s.contains t = true → b.done ⊆ (visit t b).done)
    (visits : ∀ t b, s.contains t = true → undone s b ≤ bound → Ready l s base value b t →
      Served l s base value t b (visit t b))
    {es : List Export} (part : es ⊆ r.exports)
    (apart : (es.filterMap (s.supplier? l key r.path?)).Nodup) {a b : Pass}
    {ds : List Declaration}
    (midway : Midway l s base value bound key a ds (es.filterMap (s.supplier? l key r.path?)) b) :
    Midway l s base value bound key a (es.foldl (gather l s value key r.path?) ds) []
      (es.foldl (follow l s visit (drain l s visit (.top key) 0 r.resources) (.top key) r.path?)
        b) := by
  induction es generalizing b ds with
  | nil => exact midway
  | cons e es ih =>
    have statement : e ∈ r.exports := part List.mem_cons_self
    have rest : es ⊆ r.exports := fun _ later => part (List.mem_cons_of_mem _ later)
    have draws : ∀ t ∈ es.filterMap (s.supplier? l key r.path?), s.Draws l key t :=
      fun t member => (mem_suppliers stored).mp ((List.filterMap_subset _ rest) member)
    rw [List.foldl_cons, List.foldl_cons]
    cases supplied : s.supplier? l key r.path? e with
    | none =>
      rw [List.filterMap_cons_none supplied] at apart midway
      obtain ⟨done, elsewhere, here⟩ := follow_of_no_supplier visit value
        (forest.plain key r stored) statement supplied b
      apply ih rest apart
      rw [← midway.owned, ← here]
      exact midway.alone forest draws done elsewhere
    | some t =>
      rw [List.filterMap_cons_some supplied] at apart midway
      obtain ⟨last, apart⟩ := List.nodup_cons.mp apart
      have takes : s.Takes l key e t := ⟨r, stored, statement, supplied⟩
      have held : s.contains t = true := Store.Draws.contains ⟨e, takes⟩ |>.2
      have visited := visits t b held midway.few (midway.ready t List.mem_cons_self)
      apply ih rest apart
      rw [follow_of_supplier visit supplied, gather_of_supplier supplied]
      exact midway.taking forest takes draws last (grows t b held) visited

/-- A visit serves its key, if the values solve the recursion. -/
theorem visitWithin_served (forest : s.Forest l)
    (recursion : ∀ key r, s.get? key = some r →
      value key = r.exports.foldl (gather l s value key r.path?) (base key)) (bound : Nat) :
    ∀ key a, s.contains key = true → undone s a ≤ bound → Ready l s base value a key →
      Served l s base value key a (visitWithin l s bound key a) := by
  apply visitWithin_induct (P := fun key a b =>
    Ready l s base value a key → Served l s base value key a b)
  · intro key a done ready
    exact ⟨done, ready.whole done, ready.below, fun k _ => ⟨rfl, Iff.rfl⟩⟩
  · intro bound key r a stored fresh few visits ready
    have started := Midway.start forest few fresh ready fun t => mem_suppliers stored
    have ended := foldl_midway forest stored (done_subset_visitWithin bound) visits
      (List.Subset.refl _) (forest.apart key r stored) started
    rw [settle_eq_foldl]
    constructor
    · exact ended.done
    · rw [ended.owned, recursion key r stored]
    · intro k below
      apply ended.served k below
      exact fun t member => absurd member List.not_mem_nil
    · exact ended.others

theorem visit_steady (forest : s.Forest l)
    (recursion : ∀ key r, s.get? key = some r →
      value key = r.exports.foldl (gather l s value key r.path?) (base key)) {a : Pass}
    (steady : ∀ k, s.contains k = true → Steady l s base value a k) {key : String}
    (held : s.contains key = true) :
    ∀ k, s.contains k = true → Steady l s base value (visit l s key a) k := by
  by_cases early : key ∈ a.done
  · have same : visit l s key a = a := visitWithin_of_done early
    rwa [same]
  · have stored : ∀ k, TransGen (s.Draws l) key k → s.contains k = true := by
      intro k below
      obtain ⟨t, -, last⟩ := TransGen.tail'_iff.mp below
      exact last.contains.2
    have ready : Ready l s base value a key :=
      ⟨(steady key held).fresh, fun done => absurd done early,
        fun k below => steady k (stored k below)⟩
    have served := visitWithin_served forest recursion s.size key a held (undone_le_size a) ready
    intro k present
    rcases Classical.em (ReflTransGen (s.Draws l) key k) with inside | outside
    · rcases reflTransGen_iff_eq_or_transGen.mp inside with rfl | below
      · -- what draws on the key has not begun, so the key keeps what it came to
        have free : ∀ taker, s.Draws l taker k → taker ∉ (visit l s k a).done := by
          intro taker draws
          unfold visit
          rw [(served.others taker fun back => forest.acyclic k (.tail' back draws)).2]
          exact (steady k held).untaken early taker draws
        constructor
        · exact fun late => absurd served.done late
        · exact fun late => absurd served.done late
        · exact fun _ _ => served.whole
        · exact fun _ taker e takes taken => absurd taken (free taker ⟨e, takes⟩)
      · exact served.below k below
    · exact served.keeps outside (steady k present)

theorem settleAll_steady (forest : s.Forest l)
    (recursion : ∀ key r, s.get? key = some r →
      value key = r.exports.foldl (gather l s value key r.path?) (base key)) {a : Pass}
    (steady : ∀ k, s.contains k = true → Steady l s base value a k) :
    ∀ k, s.contains k = true → Steady l s base value (settleAll l s a) k := by
  apply settleAll_keeps (P := fun b => ∀ k, s.contains k = true → Steady l s base value b k) steady
  intro key b held steady
  exact visit_steady forest recursion steady held

end Walk

end Resolution

end ExportIndex
