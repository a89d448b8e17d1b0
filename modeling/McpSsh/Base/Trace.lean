import Mathlib.Logic.Basic

/-!
# Runs of a labelled transition system

A system is a step relation between states, labelled by events. `Run` is a
finite sequence of steps; `guard` restricts a system to the steps a condition
allows. An invariant is proved once per step and holds along every run.
-/

set_option autoImplicit false

namespace McpSsh.Base

/-- A labelled step relation. -/
abbrev System (σ ε : Type) := σ → ε → σ → Prop

section

variable {σ ε : Type}

/-- A finite run and the events along it. -/
inductive Run (step : System σ ε) : σ → List ε → σ → Prop where
  | refl (s : σ) : Run step s [] s
  | step {s t u : σ} {e : ε} {es : List ε} : step s e t → Run step t es u → Run step s (e :: es) u

/-- The steps of a system whose pre-state and event satisfy `ok`. -/
def guard (step : System σ ε) (ok : σ → ε → Prop) : System σ ε := fun s e t => step s e t ∧ ok s e

/-- The system of a partial step function. -/
def ofFunction (f : σ → ε → Option σ) : System σ ε := fun s e t => f s e = some t

/-- States some run reaches from an initial one. -/
def Reachable (step : System σ ε) (init : σ → Prop) (s : σ) : Prop :=
  ∃ s₀ es, init s₀ ∧ Run step s₀ es s

variable {step : System σ ε} {inv : σ → Prop}

/-- What every step preserves, every run preserves. -/
theorem Run.preserves (keep : ∀ s e t, inv s → step s e t → inv t) {s t : σ} {es : List ε}
    (run : Run step s es t) (start : inv s) : inv t := by
  induction run with
  | refl => exact start
  | step first _ ih => exact ih (keep _ _ _ start first)

/-- An invariant of the states and the events so far. -/
theorem Run.follows {inv : List ε → σ → Prop} (keep : ∀ es s e t, inv es s → step s e t → inv (es ++ [e]) t)
    {before es : List ε} {s t : σ} (run : Run step s es t) (start : inv before s) : inv (before ++ es) t := by
  induction run generalizing before with
  | refl => rwa [List.append_nil]
  | step first _ ih =>
    rw [List.append_cons]
    exact ih (keep _ _ _ _ start first)

/-- A reflexive and transitive relation that every step respects relates the
ends of every run. -/
theorem Run.relates {rel : σ → σ → Prop} (refl : ∀ s, rel s s) (trans : ∀ s t u, rel s t → rel t u → rel s u)
    (each : ∀ s e t, step s e t → rel s t) {s t : σ} {es : List ε} (run : Run step s es t) : rel s t := by
  induction run with
  | refl s => exact refl s
  | step first _ ih => exact trans _ _ _ (each _ _ _ first) ih

theorem Run.append {s t u : σ} {es fs : List ε} (run : Run step s es t) (more : Run step t fs u) :
    Run step s (es ++ fs) u := by
  induction run with
  | refl => exact more
  | step first _ ih => exact .step first (ih more)

/-- A run splits where its events do. -/
theorem Run.split {s u : σ} {es fs : List ε} (run : Run step s (es ++ fs) u) : ∃ t, Run step s es t ∧ Run step t fs u := by
  induction es generalizing s with
  | nil => exact ⟨s, .refl s, run⟩
  | cons e es ih =>
    cases run with
    | step first rest =>
      obtain ⟨t, before, after⟩ := ih rest
      exact ⟨t, .step first before, after⟩

theorem Run.mono {step' : System σ ε} (weaker : ∀ s e t, step s e t → step' s e t) {s t : σ} {es : List ε}
    (run : Run step s es t) : Run step' s es t := by
  induction run with
  | refl => exact .refl _
  | step first _ ih => exact .step (weaker _ _ _ first) ih

/-- A condition on the events of a run guards it. -/
theorem Run.guarded {ok : ε → Prop} {s t : σ} {es : List ε} (run : Run step s es t) (each : ∀ e ∈ es, ok e) :
    Run (guard step fun _ => ok) s es t := by
  induction run with
  | refl => exact .refl _
  | step first _ ih =>
    obtain ⟨here, later⟩ := List.forall_mem_cons.mp each
    exact .step ⟨first, here⟩ (ih later)

/-- Where every step pays one from a potential, and only earns what it adds to a credit,
a run is no longer than the potential it starts with and the credit it gains. -/
theorem Run.length_add_le {potential credit : σ → Nat}
    (pays : ∀ s e t, step s e t → 1 + potential t + credit s ≤ potential s + credit t) {s t : σ} {es : List ε}
    (run : Run step s es t) : es.length + potential t + credit s ≤ potential s + credit t := by
  induction run with
  | refl => simp
  | @step s m t e es first _ ih =>
    have paid := pays s e m first
    rw [List.length_cons]
    omega

/-- A run breaks the guard exactly when it ends badly, if a step ends badly exactly when
it starts badly or breaks the guard. -/
theorem Run.guard_iff {ok : σ → ε → Prop} {bad : σ → Prop} (keep : ∀ s e t, inv s → step s e t → inv t)
    (each : ∀ s e t, inv s → step s e t → (bad t ↔ bad s ∨ ¬ ok s e)) {s t : σ} {es : List ε}
    (run : Run step s es t) (start : inv s) (good : ¬ bad s) : Run (guard step ok) s es t ↔ ¬ bad t := by
  constructor
  · intro guarded
    induction guarded with
    | refl => exact good
    | step first rest ih =>
      have later := rest.mono fun s e t stepped => stepped.1
      exact ih later (keep _ _ _ start first.1) fun spoiled =>
        ((each _ _ _ start first.1).mp spoiled).elim good fun broken => broken first.2
  · intro kept
    induction run with
    | refl s => exact .refl s
    | @step s m t e es first rest ih =>
      have middle : ¬ bad m := by
        intro spoiled
        have carry : ∀ s e t, inv s ∧ bad s → step s e t → inv t ∧ bad t := fun s e t held stepped =>
          ⟨keep s e t held.1 stepped, (each s e t held.1 stepped).mpr (.inl held.2)⟩
        exact kept (rest.preserves carry ⟨keep s e m start first, spoiled⟩).2
      have ok_ : ok s e := Classical.byContradiction fun broken =>
        middle ((each s e m start first).mpr (.inr broken))
      exact .step ⟨first, ok_⟩ (ih (keep s e m start first) middle kept)

/-- An invariant of the initial states that every step preserves holds in every
reachable state. -/
theorem Reachable.invariant {init : σ → Prop} (start : ∀ s, init s → inv s)
    (keep : ∀ s e t, inv s → step s e t → inv t) {s : σ} (reached : Reachable step init s) : inv s := by
  obtain ⟨s₀, es, initial, run⟩ := reached
  exact run.preserves keep (start s₀ initial)

end

end McpSsh.Base
