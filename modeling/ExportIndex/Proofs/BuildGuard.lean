import ExportIndex.Proofs.Consistency

/-!
The building mark under nested calls. Which calls are under way is judged from
outside, by requests and answers alone; the mark is set exactly while a build is
among them, and then every further build is dropped. An operation is a call
with everything that the parser does to the session before it answers, to any
depth; it leaves the mark and the calls that wait as it found them, whether it
succeeds, fails or is dropped.
-/
namespace ExportIndex

def Call.isBuild : Call → Bool
  | .build _ => true
  | _ => false

def Waiting.isBuild : Waiting → Bool
  | .build => true
  | _ => false

namespace Session

variable {ε : Type}

/-- The calls under way after an event: a call is under way from its request to the parser until
the answer to it, and an answer is for the call that came last. -/
def track (calls : List Call) : Event ε → Reply ε → List Call
  | .call c, .progress (.parsing _) => c :: calls
  | .call _, _ => calls
  | .answer _, _ => calls.tail

def underWay (s : Session) (calls : List Call) : List (Event ε) → List Call
  | [] => calls
  | e :: events => (s.step e).1.underWay (track calls e (s.step e).2) events

/-- Whether the given calls are the ones that wait, and the mark counts the builds among them. -/
structure Guarded (s : Session) (calls : List Call) : Prop where
  frames : calls.map Call.isBuild = s.waiting.map Waiting.isBuild
  count : calls.countP Call.isBuild = s.building.toNat

theorem Guarded.call {s : Session} {calls : List Call} (guarded : s.Guarded calls) (c : Call) :
    (s.call c).1.Guarded (track (ε := ε) calls (.call c) (.progress (s.call c).2)) := by
  obtain ⟨frames, count⟩ := guarded
  cases c with
  | build paths =>
    cases building : s.building with
    | true =>
      simp only [Session.call, building, ↓reduceIte, track]
      exact ⟨frames, count⟩
    | false =>
      rw [building] at count
      simp only [Session.call, building, Bool.false_eq_true, ↓reduceIte, track]
      refine ⟨?_, ?_⟩
      · simp [Call.isBuild, Waiting.isBuild, frames]
      · rw [List.countP_cons, count]
        rfl
  | reindex changes =>
    by_cases nothing : s.toParse changes = []
    · rw [call_reindex_finished nothing]
      exact ⟨frames, count⟩
    · rw [call_reindex_parsing nothing]
      refine ⟨?_, ?_⟩
      · simp [track, Call.isBuild, Waiting.isBuild, frames]
      · rw [track, List.countP_cons, count]
        rfl
  | reset => exact ⟨frames, count⟩

theorem Guarded.answer {s : Session} {calls : List Call} (guarded : s.Guarded calls)
    (parsing : Except ε (List Resource)) : (s.answer parsing).1.Guarded calls.tail := by
  obtain ⟨frames, count⟩ := guarded
  cases waiting : s.waiting with
  | nil =>
    rw [waiting] at frames
    obtain rfl := List.map_eq_nil_iff.mp frames
    simp only [Session.answer, waiting]
    exact ⟨by rw [waiting]; rfl, count⟩
  | cons w below =>
    rw [waiting, List.map_cons] at frames
    obtain ⟨c, outer, rfl, top, rest⟩ := List.map_eq_cons_iff.mp frames
    rw [List.countP_cons, top] at count
    cases w with
    | build =>
      -- the one build under way is the one that is answered
      have none_below : outer.countP Call.isBuild = 0 := by
        have bound := Bool.toNat_le s.building
        simp only [Waiting.isBuild, ↓reduceIte] at count
        omega
      cases parsing <;>
        · simp only [Session.answer, waiting]
          exact ⟨rest, none_below⟩
    | reindex parsed previous deleted =>
      simp only [Waiting.isBuild, Bool.false_eq_true, ↓reduceIte, Nat.add_zero] at count
      cases parsing <;>
        · simp only [Session.answer, waiting]
          exact ⟨rest, count⟩

theorem Guarded.after {s : Session} {calls : List Call} (guarded : s.Guarded calls)
    (events : List (Event ε)) : (s.after events).Guarded (s.underWay calls events) := by
  induction events generalizing s calls with
  | nil => exact guarded
  | cons e events ih =>
    cases e with
    | call c => exact ih (guarded.call c)
    | answer parsing => exact ih (guarded.answer parsing)

theorem Guarded.building_iff {s : Session} {calls : List Call} (guarded : s.Guarded calls) :
    s.building = true ↔ ∃ paths, .build paths ∈ calls := by
  have positive : 0 < calls.countP Call.isBuild ↔ ∃ paths, .build paths ∈ calls := by
    rw [List.countP_pos_iff]
    constructor
    · rintro ⟨c, member, build⟩
      cases c with
      | build paths => exact ⟨paths, member⟩
      | reindex changes => cases build
      | reset => cases build
    · rintro ⟨paths, member⟩
      exact ⟨.build paths, member, rfl⟩
  rw [← positive, guarded.count]
  cases s.building <;> simp

/-- A call with what the parser does to the session before it answers, and the answer. A call
that does not need the parser uses neither. -/
inductive Operation (ε : Type) where
  | mk (call : Call) (during : List (Operation ε)) (parsing : Except ε (List Resource))

mutual

def perform (s : Session) : Operation ε → Session × Option (Except ε Outcome)
  | ⟨c, during, parsing⟩ =>
    match s.call c with
    | (s, .finished outcome) => (s, some (.ok outcome))
    | (s, .parsing _) => (s.performAll during).answer parsing

def performAll (s : Session) : List (Operation ε) → Session
  | [] => s
  | op :: rest => (s.perform op).1.performAll rest

end

structure Restored (s t : Session) : Prop where
  layout : t.layout = s.layout
  waiting : t.waiting = s.waiting
  building : t.building = s.building

theorem Restored.refl (s : Session) : s.Restored s := ⟨rfl, rfl, rfl⟩

theorem Restored.trans {s t u : Session} (first : s.Restored t) (second : t.Restored u) :
    s.Restored u :=
  ⟨second.layout.trans first.layout, second.waiting.trans first.waiting,
    second.building.trans first.building⟩

theorem restored_answer {s t u : Session} {c : Call} {paths : List String}
    (stopped : s.call c = (t, .parsing paths)) (inner : t.Restored u)
    (parsing : Except ε (List Resource)) : s.Restored (u.answer parsing).1 := by
  obtain ⟨layout, waiting, building⟩ := inner
  cases c with
  | build files =>
    rw [call] at stopped
    split at stopped
    · cases stopped
    · rename_i idle
      obtain ⟨rfl, -⟩ := Prod.mk.inj stopped
      have clear : false = s.building := (eq_false_of_ne_true idle).symm
      cases parsing <;>
        · simp only [answer, waiting]
          exact ⟨layout, rfl, clear⟩
  | reindex changes =>
    by_cases nothing : s.toParse changes = []
    · rw [call_reindex_finished nothing] at stopped
      cases stopped
    · rw [call_reindex_parsing nothing] at stopped
      obtain ⟨rfl, -⟩ := Prod.mk.inj stopped
      cases parsing <;>
        · simp only [answer, waiting]
          exact ⟨layout, rfl, building⟩
  | reset => cases stopped

theorem restored_finished {s t : Session} {c : Call} {outcome : Outcome}
    (ended : s.call c = (t, .finished outcome)) : s.Restored t := by
  cases c with
  | build files =>
    rw [call] at ended
    split at ended
    · obtain ⟨rfl, -⟩ := Prod.mk.inj ended
      exact .refl s
    · cases ended
  | reindex changes =>
    by_cases nothing : s.toParse changes = []
    · rw [call_reindex_finished nothing] at ended
      obtain ⟨rfl, -⟩ := Prod.mk.inj ended
      exact ⟨rfl, rfl, rfl⟩
    · rw [call_reindex_parsing nothing] at ended
      cases ended
  | reset =>
    obtain ⟨rfl, -⟩ := Prod.mk.inj ended
    exact ⟨rfl, rfl, rfl⟩

mutual

theorem perform_restores (s : Session) : (op : Operation ε) → s.Restored (s.perform op).1
  | ⟨c, during, parsing⟩ => by
    rw [perform]
    split
    · rename_i ended
      exact restored_finished ended
    · rename_i stopped
      exact restored_answer stopped (performAll_restores _ during) parsing

theorem performAll_restores (s : Session) :
    (ops : List (Operation ε)) → s.Restored (s.performAll ops)
  | [] => .refl s
  | op :: rest => (perform_restores s op).trans (performAll_restores _ rest)

end

theorem perform_dropped {s : Session} (building : s.building = true) (paths : List String)
    (during : List (Operation ε)) (parsing : Except ε (List Resource)) :
    s.perform ⟨.build paths, during, parsing⟩ = (s, some (.ok (.built false))) := by
  simp [perform, call, building]

theorem perform_build {s : Session} (idle : s.building = false) (paths : List String)
    (during : List (Operation ε)) :
    (∀ rs, (s.perform ⟨.build paths, during, .ok rs⟩).2 = some (.ok (.built true)) ∧
      (s.perform ⟨.build paths, during, .ok rs⟩).1.view =
        (s.install (Store.empty.addAll s.layout rs)).view) ∧
    ∀ e, (s.perform ⟨.build paths, during, .error e⟩).2 = some (.error e) := by
  have inner := performAll_restores { s with building := true, waiting := .build :: s.waiting }
    during
  have waiting := inner.waiting
  have layout := inner.layout
  dsimp only at waiting layout
  refine ⟨fun rs => ⟨?_, ?_⟩, fun e => ?_⟩
  · simp [perform, call, idle, answer, waiting]
  · simp [perform, call, idle, answer, waiting, view, install, layout]
  · simp [perform, call, idle, answer, waiting]

/-- At every moment of every run the building mark is set exactly if a build is under way. Then
any further build is dropped: it asks the parser for nothing and changes nothing. Otherwise a
build is carried out, whatever else is under way. And whole operations leave the mark as it was,
so after any number of them that no other call surrounds it is clear. -/
theorem build_guard_exact {l : Layout} {first : Session} (started : start l = .ok first)
    (events : List (Event ε)) :
    let s := first.after events
    let calls := first.underWay [] events
    (s.building = true ↔ ∃ paths, .build paths ∈ calls) ∧
    ((∃ paths, .build paths ∈ calls) → ∀ paths during (parsing : Except ε (List Resource)),
      s.call (.build paths) = (s, .finished (.built false)) ∧
      s.perform ⟨.build paths, during, parsing⟩ = (s, some (.ok (.built false)))) ∧
    ((∀ paths, .build paths ∉ calls) → ∀ paths (during : List (Operation ε)),
      (s.call (.build paths)).2 = .parsing (paths.map l.resolve) ∧
      (∀ rs, (s.perform ⟨.build paths, during, .ok rs⟩).2 = some (.ok (.built true)) ∧
        (s.perform ⟨.build paths, during, .ok rs⟩).1.view =
          (s.install (Store.empty.addAll l rs)).view) ∧
      ∀ e, (s.perform ⟨.build paths, during, .error e⟩).2 = some (.error e)) ∧
    (∀ ops : List (Operation ε), (s.performAll ops).building = s.building ∧
      (calls = [] → (s.performAll ops).building = false)) := by
  intro s calls
  have fresh := start_eq_ok started
  have layout : s.layout = l := by
    rw [layout_after, fresh]
  have guarded : s.Guarded calls := by
    refine Guarded.after ?_ events
    subst fresh
    exact ⟨rfl, rfl⟩
  have mark := guarded.building_iff
  refine ⟨mark, ?_, ?_, ?_⟩
  · intro busy paths during parsing
    have building := mark.mpr busy
    exact ⟨by simp [call, building], perform_dropped building paths during parsing⟩
  · intro quiet paths during
    have idle : s.building = false := by
      rw [← Bool.not_eq_true, mark]
      rintro ⟨files, member⟩
      exact quiet files member
    have carried := perform_build (ε := ε) idle paths during
    rw [layout] at carried
    exact ⟨by simp [call, idle, layout], carried⟩
  · intro ops
    have kept := (performAll_restores s ops).building
    refine ⟨kept, fun alone => ?_⟩
    rw [kept, ← Bool.not_eq_true, mark, alone]
    simp

section Sample

def batchOpen : List (Event String) := [.call (.reindex ⟨[], ["a.ts"], []⟩)]

def buildInBatch : List (Event String) := batchOpen ++ [.call (.build ["b.ts"])]

theorem buildInBatch_guarded :
    start project = .ok idle ∧
    ((idle.after batchOpen).call (.build ["b.ts"])).2 =
      .parsing (["b.ts"].map project.resolve) ∧
    (idle.after buildInBatch).building = true ∧
    (∀ parsing : Except String (List Resource),
      (idle.after buildInBatch).perform ⟨.build ["c.ts"], [], parsing⟩ =
        (idle.after buildInBatch, some (.ok (.built false)))) ∧
    ∀ ops : List (Operation String), (idle.performAll ops).building = false := by
  obtain ⟨outer, -, carried, -⟩ := build_guard_exact start_project batchOpen
  obtain ⟨inner, dropped, -, -⟩ := build_guard_exact start_project buildInBatch
  obtain ⟨-, -, -, whole⟩ := build_guard_exact start_project ([] : List (Event String))
  have free : (idle.after batchOpen).building = false := by decide +kernel
  have building : (idle.after buildInBatch).building = true := by decide +kernel
  refine ⟨start_project, (carried ?_ ["b.ts"] []).1, building, ?_, fun ops => (whole ops).2 rfl⟩
  · intro paths member
    rw [outer.mpr ⟨paths, member⟩] at free
    cases free
  · exact fun parsing => (dropped (inner.mp building) ["c.ts"] [] parsing).2

end Sample

end Session

end ExportIndex
