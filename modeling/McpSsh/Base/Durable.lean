import Mathlib.Data.List.Infix

/-!
# Values that survive a restart

A value in memory that calls change, and the one that was saved last, from which a
restart recovers. The results say what a history of calls, saves and restarts leaves to
find: the value after some prefix of the history, which reaches at least to any point at
which memory was saved.
-/

set_option autoImplicit false

namespace McpSsh.Base

/-- The value in memory, and the one a restart finds. -/
structure Durable (σ : Type) where
  memory : σ
  saved : σ

/-- What happens to a durable value; `other` is anything that does not concern it. -/
inductive DurableEvent (ε : Type) where
  | call (e : ε)
  | save
  | restart
  | other

namespace Durable

variable {σ ε : Type} (apply : σ → ε → σ) (recover : σ → σ)

def after (d : Durable σ) : DurableEvent ε → Durable σ
  | .call e => { d with memory := apply d.memory e }
  | .save => { d with saved := d.memory }
  | .restart => { d with memory := recover d.saved }
  | .other => d

/-- The value after a history that starts with `start`, in memory and saved. -/
def replay (start : σ) (history : List (DurableEvent ε)) : Durable σ :=
  history.foldl (after apply recover) ⟨start, start⟩

variable {apply : σ → ε → σ} {recover : σ → σ} {start : σ}

theorem replay_concat (history : List (DurableEvent ε)) (event : DurableEvent ε) :
    replay apply recover start (history ++ [event]) = (replay apply recover start history).after apply recover event := by
  simp [replay]

/-- **What is saved is the memory of an earlier moment**, and of one no earlier than
where memory was last known to be saved. -/
theorem saved_reaches {before : List (DurableEvent ε)} (level : (replay apply recover start before).saved =
    (replay apply recover start before).memory) (history : List (DurableEvent ε)) :
    ∃ more, more <+: history ∧
      (replay apply recover start (before ++ history)).saved = (replay apply recover start (before ++ more)).memory := by
  induction history using List.reverseRecOn with
  | nil => exact ⟨[], List.nil_prefix, by rw [List.append_nil, level]⟩
  | append_singleton history event ih =>
    obtain ⟨more, part, same⟩ := ih
    have kept : (replay apply recover start (before ++ history)).saved =
        (replay apply recover start (before ++ more)).memory := same
    rw [← List.append_assoc, replay_concat]
    cases event with
    | call e => exact ⟨more, part.trans (List.prefix_append _ _), kept⟩
    | save => exact ⟨history, List.prefix_append _ _, rfl⟩
    | restart => exact ⟨more, part.trans (List.prefix_append _ _), kept⟩
    | other => exact ⟨more, part.trans (List.prefix_append _ _), kept⟩

end Durable

end McpSsh.Base
