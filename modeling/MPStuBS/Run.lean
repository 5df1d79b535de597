import Mathlib.Data.List.Basic

/-! Finite runs of a deterministic transition function whose steps may be
impossible. Nothing here names a particular machine: a model instantiates `step`
and obtains its invariants from what one step preserves. -/
namespace MPStuBS.Run

variable {S A : Type}

/-- The state after the actions in order, if every one of them is possible. -/
def exec (step : S → A → Option S) : S → List A → Option S
  | s, [] => some s
  | s, a :: rest => (step s a).bind fun next => exec step next rest

/-- Every action of the run is taken in a state that meets the condition. -/
def Along (step : S → A → Option S) (cond : S → A → Prop) : S → List A → Prop
  | _, [] => True
  | s, a :: rest => cond s a ∧ ∀ next, step s a = some next → Along step cond next rest

instance Along.decidable (step : S → A → Option S) (cond : S → A → Prop)
    [∀ s a, Decidable (cond s a)] : ∀ s actions, Decidable (Along step cond s actions)
  | _, [] => isTrue trivial
  | s, a :: rest =>
    match found : step s a with
    | none =>
      if h : cond s a then isTrue ⟨h, by intro next eq; rw [found] at eq; cases eq⟩
      else isFalse fun along => h along.1
    | some next =>
      if h : cond s a then
        match Along.decidable step cond next rest with
        | isTrue later => isTrue ⟨h, by intro other eq; rw [found] at eq; cases eq; exact later⟩
        | isFalse later => isFalse fun along => later (along.2 next found)
      else isFalse fun along => h along.1

/-- What is observed at every step of a run, first to last. -/
def collect {B : Type} (step : S → A → Option S) (observe : S → A → S → List B) : S → List A → List B
  | _, [] => []
  | s, a :: rest =>
    match step s a with
    | none => []
    | some next => observe s a next ++ collect step observe next rest

variable {step : S → A → Option S} {cond : S → A → Prop}

theorem collect_cons {B : Type} {observe : S → A → S → List B} {s next : S} {a : A} {rest : List A}
    (found : step s a = some next) :
    collect step observe s (a :: rest) = observe s a next ++ collect step observe next rest := by
  rw [collect, found]

@[simp] theorem exec_nil (s : S) : exec step s [] = some s := rfl

theorem exec_cons (s : S) (a : A) (rest : List A) :
    exec step s (a :: rest) = (step s a).bind fun next => exec step next rest := rfl

theorem exec_append (s : S) (first second : List A) :
    exec step s (first ++ second) = (exec step s first).bind fun next => exec step next second := by
  induction first generalizing s with
  | nil => rfl
  | cons a rest ih =>
    simp only [List.cons_append, exec_cons]
    cases step s a with
    | none => rfl
    | some next => exact ih next

theorem exec_append_eq_some {s final : S} {first second : List A} :
    exec step s (first ++ second) = some final ↔
      ∃ middle, exec step s first = some middle ∧ exec step middle second = some final := by
  rw [exec_append]
  exact Option.bind_eq_some_iff

theorem exec_cons_eq_some {s final : S} {a : A} {rest : List A} :
    exec step s (a :: rest) = some final ↔
      ∃ next, step s a = some next ∧ exec step next rest = some final := by
  rw [exec_cons]
  exact Option.bind_eq_some_iff

/-- What every possible step preserves holds after every run. -/
theorem invariant (property : S → Prop)
    (preserved : ∀ s a next, property s → step s a = some next → property next)
    {s final : S} {actions : List A} (run : exec step s actions = some final)
    (start : property s) : property final := by
  induction actions generalizing s with
  | nil => cases run; exact start
  | cons a rest ih =>
    obtain ⟨next, first, later⟩ := exec_cons_eq_some.mp run
    exact ih later (preserved s a next start first)

/-- The same for runs whose steps all meet a condition. -/
theorem invariant_along (property : S → Prop)
    (preserved : ∀ s a next, property s → cond s a → step s a = some next → property next)
    {s final : S} {actions : List A} (run : exec step s actions = some final)
    (along : Along step cond s actions) (start : property s) : property final := by
  induction actions generalizing s with
  | nil => cases run; exact start
  | cons a rest ih =>
    obtain ⟨next, first, later⟩ := exec_cons_eq_some.mp run
    exact ih later (along.2 next first) (preserved s a next start along.1 first)

/-- A condition on the actions alone. -/
theorem along_of_forall {cond : A → Prop} (s : S) {actions : List A}
    (each : ∀ a ∈ actions, cond a) : Along step (fun _ a => cond a) s actions := by
  induction actions generalizing s with
  | nil => trivial
  | cons a rest ih =>
    exact ⟨each a List.mem_cons_self, fun next _ => ih next fun b h => each b (List.mem_cons_of_mem _ h)⟩

theorem along_append {s : S} {first second : List A} :
    Along step cond s (first ++ second) ↔ Along step cond s first ∧
      ∀ middle, exec step s first = some middle → Along step cond middle second := by
  induction first generalizing s with
  | nil => simp [Along]
  | cons a rest ih =>
    simp only [List.cons_append, Along, exec_cons, ih]
    constructor
    · rintro ⟨here, later⟩
      refine ⟨⟨here, fun next eq => (later next eq).1⟩, ?_⟩
      intro middle run
      obtain ⟨next, eq, rest⟩ := Option.bind_eq_some_iff.mp run
      exact (later next eq).2 middle rest
    · rintro ⟨⟨here, before⟩, after⟩
      refine ⟨here, fun next eq => ⟨before next eq, ?_⟩⟩
      intro middle run
      exact after middle (by rw [eq]; exact run)

/-- The condition is met along a run exactly if it is met after each of its prefixes. -/
theorem along_iff {s : S} {actions : List A} :
    Along step cond s actions ↔ ∀ before a after middle, actions = before ++ a :: after →
      exec step s before = some middle → cond middle a := by
  constructor
  · rintro along before a after middle rfl reached
    exact ((along_append.mp along).2 middle reached).1
  · intro each
    induction actions generalizing s with
    | nil => trivial
    | cons a rest ih =>
      refine ⟨each [] a rest s rfl rfl, fun next eq => ih ?_⟩
      rintro before b after middle rfl reached
      exact each (a :: before) b after middle rfl (by rw [exec_cons, eq]; exact reached)

end MPStuBS.Run
