import ExportIndex.Session

/-!
A session at every moment of every run. A run is any order of calls and of
answers to the calls that wait, so calls that come in while another one waits,
and answers that report a failure, are covered. Queries read a session and are
no part of a run. The three parts that a query can see always belong together,
and a call that waits has not changed any of them yet.
-/
namespace ExportIndex.Session

variable {ε : Type}

inductive Event (ε : Type) where
  | call (c : Call)
  | answer (parsing : Except ε (List Resource))

inductive Reply (ε : Type) where
  | progress (progress : Progress)
  | outcome (outcome : Option (Except ε Outcome))

def step (s : Session) : Event ε → Session × Reply ε
  | .call c => ((s.call c).1, .progress (s.call c).2)
  | .answer parsing => ((s.answer parsing).1, .outcome (s.answer parsing).2)

def after (s : Session) (events : List (Event ε)) : Session :=
  events.foldl (fun s e => (s.step e).1) s

def view (s : Session) : Store × Store × Option Catalog := (s.parsed, s.resolved, s.catalog)

/-- There is nothing yet, or the resolved store and the catalog are those of the parsed store. -/
def Consistent (l : Layout) (s : Session) : Prop :=
  s.view = (.empty, .empty, none) ∨
    s.view = (s.parsed, s.parsed.resolve l, some (.ofStore (s.parsed.resolve l)))

theorem install_consistent (s : Session) (parsed : Store) :
    (s.install parsed).Consistent s.layout := Or.inr rfl

theorem call_reindex_finished {s : Session} {changes : Changes}
    (nothing : s.toParse changes = []) :
    s.call (.reindex changes) =
      ((s.finishReindex s.parsed s.catalog (changes.gone s.layout.root) []).1,
        .finished (.changed
          (s.finishReindex s.parsed s.catalog (changes.gone s.layout.root) []).2)) := by
  rw [call, nothing]

theorem call_reindex_parsing {s : Session} {changes : Changes}
    (something : s.toParse changes ≠ []) :
    s.call (.reindex changes) =
      ({ s with waiting :=
          .reindex s.parsed s.catalog (changes.gone s.layout.root) :: s.waiting },
        .parsing (s.toParse changes)) := by
  rw [call]
  split
  · contradiction
  · rfl

theorem layout_call (s : Session) (c : Call) : (s.call c).1.layout = s.layout := by
  cases c with
  | build paths =>
    rw [call]
    split <;> rfl
  | reindex changes =>
    by_cases nothing : s.toParse changes = []
    · rw [call_reindex_finished nothing]
      rfl
    · rw [call_reindex_parsing nothing]
  | reset => rfl

theorem layout_answer (s : Session) (parsing : Except ε (List Resource)) :
    (s.answer parsing).1.layout = s.layout := by
  rw [answer]
  split
  · rfl
  · cases parsing <;> rfl
  · cases parsing <;> rfl

theorem layout_after (s : Session) (events : List (Event ε)) :
    (s.after events).layout = s.layout := by
  induction events generalizing s with
  | nil => rfl
  | cons e events ih =>
    cases e with
    | call c => exact (ih _).trans (layout_call s c)
    | answer parsing => exact (ih _).trans (layout_answer s parsing)

theorem call_consistent {l : Layout} {s : Session} (layout : s.layout = l)
    (consistent : s.Consistent l) (c : Call) : (s.call c).1.Consistent l := by
  subst layout
  cases c with
  | build paths =>
    rw [call]
    split
    · exact consistent
    · exact consistent
  | reindex changes =>
    by_cases nothing : s.toParse changes = []
    · rw [call_reindex_finished nothing]
      exact install_consistent s _
    · rw [call_reindex_parsing nothing]
      exact consistent
  | reset => exact Or.inl rfl

theorem answer_consistent {l : Layout} {s : Session} (layout : s.layout = l)
    (consistent : s.Consistent l) (parsing : Except ε (List Resource)) :
    (s.answer parsing).1.Consistent l := by
  subst layout
  rw [answer]
  split
  · exact consistent
  · cases parsing with
    | error e => exact consistent
    | ok rs => exact install_consistent _ _
  · cases parsing with
    | error e => exact consistent
    | ok rs => exact install_consistent _ _

theorem after_consistent {l : Layout} {s : Session} (layout : s.layout = l)
    (consistent : s.Consistent l) (events : List (Event ε)) : (s.after events).Consistent l := by
  induction events generalizing s with
  | nil => exact consistent
  | cons e events ih =>
    cases e with
    | call c => exact ih ((layout_call s c).trans layout) (call_consistent layout consistent c)
    | answer parsing =>
      exact ih ((layout_answer s parsing).trans layout)
        (answer_consistent layout consistent parsing)

theorem start_eq_ok {l : Layout} {s : Session} (started : start l = .ok s) :
    s = ⟨l, .empty, .empty, none, false, []⟩ := by
  unfold start at started
  split at started
  · cases started
  · exact (Except.ok.inj started).symm

theorem answer_error (s : Session) (e : ε) :
    (s.answer (.error e)).1.view = s.view ∧
      (s.waiting ≠ [] → (s.answer (.error e)).2 = some (.error e)) := by
  cases waiting : s.waiting with
  | nil => simp [answer, waiting]
  | cons w rest => cases w <;> simp [answer, waiting, view]

def above (s : Session) (below : List Waiting) : Session :=
  { s with waiting := s.waiting ++ below }

/-- Whether every answer among the events is for a call among them. -/
def Inside : Session → List (Event ε) → Prop
  | _, [] => True
  | s, e :: events => (∀ parsing, e = .answer parsing → s.waiting ≠ []) ∧ Inside (s.step e).1 events

theorem Inside.last {s : Session} {events : List (Event ε)} {e : Event ε}
    (inside : s.Inside (events ++ [e])) :
    ∀ parsing, e = .answer parsing → (s.after events).waiting ≠ [] := by
  induction events generalizing s with
  | nil => exact inside.1
  | cons first events ih => exact ih inside.2

theorem step_above {s : Session} {e : Event ε}
    (own : ∀ parsing, e = .answer parsing → s.waiting ≠ []) (below : List Waiting) :
    (s.above below).step e = ((s.step e).1.above below, (s.step e).2) := by
  cases e with
  | call c =>
    cases c with
    | build paths =>
      by_cases building : s.building = true
      · simp [step, call, above, building]
      · simp [step, call, above, building]
    | reindex changes =>
      simp only [step]
      by_cases nothing : s.toParse changes = []
      · rw [call_reindex_finished nothing, call_reindex_finished (s := s.above below) nothing]
        rfl
      · rw [call_reindex_parsing nothing, call_reindex_parsing (s := s.above below) nothing]
        rfl
    | reset => rfl
  | answer parsing =>
    have waits := own parsing rfl
    cases waiting : s.waiting with
    | nil => exact absurd waiting waits
    | cons w rest =>
      cases w with
      | build => cases parsing <;> simp [step, answer, above, waiting, install]
      | reindex parsed previous deleted =>
        cases parsing <;> simp [step, answer, above, waiting, finishReindex, install]

theorem after_above {s : Session} {events : List (Event ε)} (inside : s.Inside events)
    (below : List Waiting) : (s.above below).after events = (s.after events).above below := by
  induction events generalizing s with
  | nil => rfl
  | cons e events ih =>
    obtain ⟨own, inside⟩ := inside
    change ((s.above below).step e).1.after events = _
    rw [step_above own below]
    exact ih inside

/-- A call that stops has set nothing but the building mark and its own place among those
that wait. -/
theorem call_parsing {s t : Session} {c : Call} {paths : List String}
    (stopped : s.call c = (t, .parsing paths)) :
    t = { s with building := t.building, waiting := t.waiting } := by
  cases c with
  | build files =>
    rw [call] at stopped
    split at stopped
    · cases stopped
    · obtain ⟨rfl, _⟩ := Prod.mk.inj stopped
      rfl
  | reindex changes =>
    by_cases nothing : s.toParse changes = []
    · rw [call_reindex_finished nothing] at stopped
      cases stopped
    · rw [call_reindex_parsing nothing] at stopped
      obtain ⟨rfl, _⟩ := Prod.mk.inj stopped
      rfl
  | reset => cases stopped

def alone (s : Session) (building : Bool) : Session :=
  { s with building := building, waiting := [] }

theorem eq_above_alone {s t : Session} {c : Call} {paths : List String}
    (stopped : s.call c = (t, .parsing paths)) :
    t = (s.alone t.building).above t.waiting := by
  rw [call_parsing stopped]
  rfl

theorem after_parsing {s t : Session} {c : Call} {paths : List String}
    (stopped : s.call c = (t, .parsing paths)) {inner : List (Event ε)}
    (inside : (s.alone t.building).Inside inner) :
    t.after inner = ((s.alone t.building).after inner).above t.waiting := by
  have run := after_above inside t.waiting
  rwa [← eq_above_alone stopped] at run

/-- Whatever the order of calls, answers and failures, a session is consistent; a failure
leaves all that can be seen as it is; and what is seen while a call waits, with every reply, is
what would be seen if that call were not there. -/
theorem run_consistent {l : Layout} {first : Session} (started : start l = .ok first)
    (events : List (Event ε)) :
    (first.after events).Consistent l ∧
    (∀ e : ε, ((first.after events).answer (.error e)).1.view = (first.after events).view ∧
      ((first.after events).waiting ≠ [] →
        ((first.after events).answer (.error e)).2 = some (.error e))) ∧
    (∀ c t paths, (first.after events).call c = (t, .parsing paths) →
      ∀ inner : List (Event ε), ((first.after events).alone t.building).Inside inner →
      (t.after inner).view = (((first.after events).alone t.building).after inner).view ∧
      ∀ e, ((first.after events).alone t.building).Inside (inner ++ [e]) →
        ((t.after inner).step e).2 =
          ((((first.after events).alone t.building).after inner).step e).2) := by
  have fresh := start_eq_ok started
  refine ⟨?_, answer_error _, ?_⟩
  · subst fresh
    exact after_consistent rfl (Or.inl rfl) events
  · intro c t paths stopped inner inside
    have run := after_parsing stopped inside
    constructor
    · rw [run]
      rfl
    · intro e more
      rw [run, step_above more.last]

section Sample

def project : Layout := { root := "/ws" }

def idle : Session := ⟨project, .empty, .empty, none, false, []⟩

theorem start_project : start project = .ok idle := by
  have faultless : project.fault? = none := by decide
  rw [start, faultless]
  rfl

def sourceFile (path symbol : String) (exports : List Export) : Resource :=
  ⟨.file path, [⟨symbol, .classDef, true, none⟩], exports, [], [], [], none⟩

def builtOnce : List (Event String) :=
  [.call (.build ["a.ts"]), .answer (.ok [sourceFile "/ws/a.ts" "A" []])]

def saving : Call := .reindex ⟨[], ["b.ts"], []⟩

def busy : Session := idle.after (builtOnce ++ [.call saving])

def interruptions : List (Event String) :=
  [.call (.build ["c.ts"]), .answer (.error "unreadable"), .call (.build ["c.ts"]),
    .answer (.ok [sourceFile "/ws/c.ts" "C" []])]

theorem busy_waits : (idle.after builtOnce).call saving = (busy, .parsing ["/ws/b.ts"]) := by
  have asked : (idle.after builtOnce).toParse ⟨[], ["b.ts"], []⟩ = ["/ws/b.ts"] := by
    decide +kernel
  have something : (idle.after builtOnce).toParse ⟨[], ["b.ts"], []⟩ ≠ [] := by
    rw [asked]
    exact List.cons_ne_nil _ _
  have stopped := call_reindex_parsing something
  rw [asked] at stopped
  exact Prod.ext rfl (congrArg Prod.snd stopped)

theorem busy_alone : (idle.after builtOnce).alone busy.building = idle.after builtOnce := by
  have free : busy.building = false := by decide +kernel
  rw [free]
  rfl

theorem interruptions_inside : (idle.after builtOnce).Inside interruptions := by
  have built : (idle.after builtOnce).building = false := by decide +kernel
  simp [Inside, interruptions, step, call, answer, built]

/-- The events up to the answer for the batch, which works on what it found when it began. -/
def wholeRun : List (Event String) :=
  builtOnce ++ .call saving :: interruptions ++
    [.answer (.ok [sourceFile "/ws/b.ts" "B" [.all "./a" none]])]

theorem busy_run_consistent :
    start project = .ok idle ∧
    (busy.Consistent project ∧ busy.flatten.map Entry.origin = ["/a"]) ∧
    ((busy.answer (.error "unreadable")).1.view = busy.view ∧
      (busy.answer (.error "unreadable")).2 = some (.error "unreadable")) ∧
    ((busy.after interruptions).view = ((idle.after builtOnce).after interruptions).view ∧
      (busy.after interruptions).flatten.map Entry.origin = ["/c"]) ∧
    (idle.after wholeRun).Consistent project ∧
      (idle.after wholeRun).flatten.map Entry.origin = ["/b", "/b"] := by
  obtain ⟨consistent, failing, -⟩ := run_consistent start_project (builtOnce ++ [.call saving])
  obtain ⟨-, -, apart⟩ := run_consistent start_project builtOnce
  obtain ⟨whole, -, -⟩ := run_consistent start_project wholeRun
  have waiting : busy.waiting.isEmpty = false := by decide +kernel
  have inside := apart saving busy _ busy_waits interruptions
  rw [busy_alone] at inside
  refine ⟨start_project, ⟨consistent, by decide +kernel⟩, ?_,
    ⟨(inside interruptions_inside).1, by decide +kernel⟩, whole, by decide +kernel⟩
  exact ⟨(failing "unreadable").1, (failing "unreadable").2 (List.isEmpty_eq_false_iff.mp waiting)⟩

end Sample

end ExportIndex.Session
