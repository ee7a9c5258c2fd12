/-
Module: ElmClient.Proofs.Outcome
Purpose: How a computation that may fail comes to succeed, and what the results of a list of such
  computations have to do with its items.
Main exports: Except.bind_eq_ok, Except.map_eq_ok, Except.mapError_eq_ok, Except.bind_eq_error,
  Except.bind_congr, Except.ite_error_eq_ok, Except.error_ite_eq_ok, Except.foldlM_cons_eq_ok,
  Except.mapM_eq_ok, Except.Agree, Except.FailsOnly, Forall₂.exists_right, Forall₂.exists_left,
  Forall₂.map_eq_map
-/
import Mathlib.Data.List.Forall2

namespace ElmClient.Except

variable {ε ε' α β : Type}

/-- A sequence succeeds where both of its parts do. -/
theorem bind_eq_ok {first : Except ε α} {next : α → Except ε β} {result : β} :
    (first >>= next) = .ok result ↔ ∃ value, first = .ok value ∧ next value = .ok result := by
  cases first with
  | error cause => simp [bind, Except.bind]
  | ok value => simp [bind, Except.bind]

theorem pure_eq_ok {value result : α} : (pure value : Except ε α) = .ok result ↔ value = result :=
  ⟨Except.ok.inj, congrArg Except.ok⟩

theorem map_eq_ok {f : α → β} {first : Except ε α} {result : β} :
    (f <$> first) = .ok result ↔ ∃ value, first = .ok value ∧ f value = result := by
  cases first with
  | error cause => simp [Functor.map, Except.map]
  | ok value => simp [Functor.map, Except.map]

theorem mapError_eq_ok {f : ε → ε'} {first : Except ε α} {result : α} :
    first.mapError f = .ok result ↔ first = .ok result := by
  cases first <;> simp [Except.mapError]

/-- A sequence fails where one of its parts does. -/
theorem bind_eq_error {first : Except ε α} {next : α → Except ε β} {cause : ε} :
    (first >>= next) = .error cause ↔
      first = .error cause ∨ ∃ value, first = .ok value ∧ next value = .error cause := by
  cases first with
  | error cause => simp [bind, Except.bind]
  | ok value => simp [bind, Except.bind]

theorem exists_bind_eq_ok {first : Except ε α} {next : α → Except ε β} {value : α}
    (succeeded : first = .ok value) (after : ∃ result, next value = .ok result) :
    ∃ result, (first >>= next) = .ok result := by
  obtain ⟨result, later⟩ := after
  exact ⟨result, bind_eq_ok.mpr ⟨value, succeeded, later⟩⟩

/-- Sequences with the same first part are equal where their second parts are, after what the first
part comes to. -/
theorem bind_congr {first : Except ε α} {next next' : α → Except ε β}
    (after : ∀ value, first = .ok value → next value = next' value) :
    (first >>= next) = (first >>= next') := by
  cases first with
  | error cause => rfl
  | ok value => exact after value rfl

theorem map_eq_error {f : α → β} {first : Except ε α} {cause : ε} :
    (f <$> first) = .error cause ↔ first = .error cause := by
  cases first with
  | error cause => simp [Functor.map, Except.map]
  | ok value => simp [Functor.map, Except.map]

theorem mapError_eq_error {f : ε → ε'} {first : Except ε α} {cause : ε'} :
    first.mapError f = .error cause ↔ ∃ inner, first = .error inner ∧ f inner = cause := by
  cases first <;> simp [Except.mapError]

/-- A test of a result, which fails without one, passes where there is a result that passes. -/
theorem any_toOption {attempt : Except ε α} {test : α → Bool} :
    attempt.toOption.any test = true ↔ ∃ value, attempt = .ok value ∧ test value = true := by
  cases attempt <;> simp [Except.toOption]

/-- What is refused unless a condition holds succeeds where the condition holds. -/
theorem ite_error_eq_ok {condition : Bool} {attempt : Except ε α} {cause : ε} {result : α} :
    (if condition then attempt else .error cause) = .ok result ↔
      condition = true ∧ attempt = .ok result := by
  cases condition <;> simp

/-- What is refused if a condition holds succeeds where it does not hold. -/
theorem error_ite_eq_ok {condition : Bool} {attempt : Except ε α} {cause : ε} {result : α} :
    (if condition then .error cause else attempt) = .ok result ↔
      condition = false ∧ attempt = .ok result := by
  cases condition <;> simp

theorem foldlM_cons_eq_ok {step : β → α → Except ε β} {first : α} {rest : List α}
    {start result : β} :
    (first :: rest).foldlM step start = .ok result ↔
      ∃ next, step start first = .ok next ∧ rest.foldlM step next = .ok result := by
  rw [List.foldlM_cons, bind_eq_ok]

/-- A function that succeeds on every item of a list gives a result for each, in order. -/
theorem mapM_eq_ok {f : α → Except ε β} {items : List α} {results : List β} :
    items.mapM f = .ok results ↔
      List.Forall₂ (fun item result => f item = .ok result) items results := by
  induction items generalizing results with
  | nil =>
      rw [List.mapM_nil, pure_eq_ok]
      constructor
      · rintro rfl
        exact .nil
      · intro related
        cases related
        rfl
  | cons first rest ih =>
      rw [List.mapM_cons, bind_eq_ok]
      constructor
      · rintro ⟨value, succeeded, after⟩
        obtain ⟨values, later, same⟩ := bind_eq_ok.mp after
        rw [← pure_eq_ok.mp same]
        exact .cons succeeded (ih.mp later)
      · intro related
        cases related with
        | cons succeeded later =>
            exact ⟨_, succeeded, bind_eq_ok.mpr ⟨_, ih.mpr later, rfl⟩⟩

/-- Functions that are equal on the items of a list give the same results for them. -/
theorem mapM_congr {f g : α → Except ε β} {items : List α}
    (same : ∀ item ∈ items, f item = g item) : items.mapM f = items.mapM g := by
  induction items with
  | nil => rfl
  | cons first rest ih =>
      obtain ⟨here, later⟩ := List.forall_mem_cons.mp same
      rw [List.mapM_cons, List.mapM_cons, here, ih later]

/-- A function that fails on a list fails on one of its items. -/
theorem exists_of_mapM_eq_error {f : α → Except ε β} {items : List α} {cause : ε}
    (failed : items.mapM f = .error cause) : ∃ item ∈ items, f item = .error cause := by
  induction items with
  | nil => exact nomatch failed
  | cons first rest ih =>
      rw [List.mapM_cons] at failed
      rcases bind_eq_error.mp failed with here | ⟨value, _, after⟩
      · exact ⟨first, List.mem_cons_self, here⟩
      · rcases bind_eq_error.mp after with later | ⟨values, _, done⟩
        · obtain ⟨item, member, failed'⟩ := ih later
          exact ⟨item, List.mem_cons_of_mem _ member, failed'⟩
        · exact nomatch done

/-- Two attempts with the same outcome, whose result has a property if there is one. -/
structure Agree (holds : α → Prop) (one other : Except ε α) : Prop where
  same : other = one
  holds : ∀ result, one = .ok result → holds result

theorem Agree.ok {property : α → Prop} {value : α} (has : property value) :
    Agree property (.ok value : Except ε α) (.ok value) :=
  ⟨rfl, fun _ succeeded => Except.ok.inj succeeded ▸ has⟩

theorem Agree.of_eq {one other : Except ε α} (same : other = one) :
    Agree (fun _ => True) one other :=
  ⟨same, fun _ _ => trivial⟩

theorem Agree.imp {weaker property : α → Prop} {one other : Except ε α}
    (agree : Agree property one other) (implies : ∀ value, property value → weaker value) :
    Agree weaker one other :=
  ⟨agree.same, fun result succeeded => implies result (agree.holds result succeeded)⟩

/-- Sequences agree where their first parts do and where the second parts do after each value that
the first parts can come to. -/
theorem Agree.bind {reached : α → Prop} {property : β → Prop} {one other : Except ε α}
    {next next' : α → Except ε β} (agree : Agree reached one other)
    (after : ∀ value, reached value → Agree property (next value) (next' value)) :
    Agree property (one >>= next) (other >>= next') := by
  obtain ⟨rfl, leads⟩ := agree
  cases outcome : other with
  | error cause => exact ⟨rfl, fun _ succeeded => nomatch succeeded⟩
  | ok value => exact after value (leads value outcome)

/-- An attempt that fails for no causes but those of a kind. -/
def FailsOnly (kind : ε → Prop) (attempt : Except ε α) : Prop :=
  ∀ cause, attempt = .error cause → kind cause

section FailsOnly

variable {kind : ε → Prop}

theorem FailsOnly.ok (value : α) : FailsOnly kind (.ok value) :=
  fun _ failed => nomatch failed

theorem FailsOnly.error {cause : ε} (such : kind cause) :
    FailsOnly kind (.error cause : Except ε α) :=
  fun _ failed => Except.error.inj failed ▸ such

/-- A sequence fails only for causes of a kind if its first part does, and its second part after
each value that the first part can come to. -/
theorem FailsOnly.bind {first : Except ε α} {next : α → Except ε β}
    (before : FailsOnly kind first)
    (after : ∀ value, first = .ok value → FailsOnly kind (next value)) :
    FailsOnly kind (first >>= next) := by
  intro cause failed
  rcases bind_eq_error.mp failed with here | ⟨value, succeeded, later⟩
  · exact before cause here
  · exact after value succeeded cause later

theorem FailsOnly.imp {narrower : ε → Prop} {attempt : Except ε α}
    (before : FailsOnly narrower attempt) (implies : ∀ cause, narrower cause → kind cause) :
    FailsOnly kind attempt :=
  fun cause failed => implies cause (before cause failed)

theorem FailsOnly.map {f : α → β} {first : Except ε α} (before : FailsOnly kind first) :
    FailsOnly kind (f <$> first) :=
  fun cause failed => before cause (map_eq_error.mp failed)

theorem FailsOnly.ite {condition : Prop} [Decidable condition] {one other : Except ε α}
    (holds : condition → FailsOnly kind one) (fails : ¬ condition → FailsOnly kind other) :
    FailsOnly kind (if condition then one else other) := by
  split
  · exact holds ‹_›
  · exact fails ‹_›

theorem FailsOnly.mapM {f : α → Except ε β} {items : List α}
    (each : ∀ item ∈ items, FailsOnly kind (f item)) : FailsOnly kind (items.mapM f) := by
  intro cause failed
  obtain ⟨item, member, here⟩ := exists_of_mapM_eq_error failed
  exact each item member cause here

theorem FailsOnly.foldlM {f : β → α → Except ε β} {items : List α}
    (each : ∀ item ∈ items, ∀ state, FailsOnly kind (f state item)) (state : β) :
    FailsOnly kind (items.foldlM f state) := by
  induction items generalizing state with
  | nil => exact .ok state
  | cons first rest ih =>
      obtain ⟨here, later⟩ := List.forall_mem_cons.mp each
      rw [List.foldlM_cons]
      exact .bind (here state) fun next _ => ih later next

end FailsOnly

theorem exists_mapM_eq_ok {f : α → Except ε β} {items : List α}
    (each : ∀ item ∈ items, ∃ result, f item = .ok result) :
    ∃ results, items.mapM f = .ok results := by
  cases outcome : items.mapM f with
  | ok results => exact ⟨results, rfl⟩
  | error cause =>
      obtain ⟨item, member, failed⟩ := exists_of_mapM_eq_error outcome
      obtain ⟨result, succeeded⟩ := each item member
      exact nomatch failed.symm.trans succeeded

end ElmClient.Except

namespace ElmClient.Forall₂

variable {α β γ : Type} {related : α → β → Prop} {items : List α} {results : List β}

theorem exists_right (each : List.Forall₂ related items results) {item : α}
    (member : item ∈ items) : ∃ result ∈ results, related item result := by
  induction each with
  | nil => exact absurd member List.not_mem_nil
  | cons here _ ih =>
      rcases List.mem_cons.mp member with rfl | later
      · exact ⟨_, List.mem_cons_self, here⟩
      · obtain ⟨result, there, holds⟩ := ih later
        exact ⟨result, List.mem_cons_of_mem _ there, holds⟩

theorem exists_left (each : List.Forall₂ related items results) {result : β}
    (member : result ∈ results) : ∃ item ∈ items, related item result :=
  exists_right each.flip member

theorem imp_of_mem {implied : α → β → Prop} (each : List.Forall₂ related items results)
    (implies : ∀ item ∈ items, ∀ result, related item result → implied item result) :
    List.Forall₂ implied items results := by
  induction each with
  | nil => exact .nil
  | cons here _ ih =>
      obtain ⟨first, later⟩ := List.forall_mem_cons.mp implies
      exact .cons (first _ here) (ih later)

/-- Where each item and its result have something in between, there is a list in between. -/
theorem exists_between {first : α → γ → Prop} {second : γ → β → Prop}
    (each : List.Forall₂ related items results)
    (between : ∀ item result, related item result → ∃ middle, first item middle ∧
      second middle result) :
    ∃ middles, List.Forall₂ first items middles ∧ List.Forall₂ second middles results := by
  induction each with
  | nil => exact ⟨[], .nil, .nil⟩
  | cons here _ ih =>
      obtain ⟨middle, before, after⟩ := between _ _ here
      obtain ⟨middles, earlier, later⟩ := ih
      exact ⟨middle :: middles, .cons before earlier, .cons after later⟩

/-- What related items and results have in common is the same list of values. -/
theorem map_eq_map (each : List.Forall₂ related items results) {f : α → γ} {g : β → γ}
    (same : ∀ item result, related item result → g result = f item) :
    results.map g = items.map f := by
  induction each with
  | nil => rfl
  | cons here _ ih => rw [List.map_cons, List.map_cons, same _ _ here, ih]

theorem eq_of_same {results : List α}
    (each : List.Forall₂ (fun item result => result = item) items results) : results = items := by
  induction each with
  | nil => rfl
  | cons here _ ih => rw [here, ih]

end ElmClient.Forall₂
