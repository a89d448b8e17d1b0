import Mathlib.Logic.Basic

/-!
# Computations that leave a trace and may raise

A block of code that records what it does, in order, and ends with a value or an
exception. What was recorded before an exception stays recorded. Two properties are
carried through blocks step by step: what holds of the value a block ends with, and what
holds of everything that a block which ends has recorded.
-/

set_option autoImplicit false

namespace McpSsh.Base

/-- What was recorded, and how the block ended. -/
structure Traced (ω ε α : Type) where
  trace : List ω
  result : Except ε α

namespace Traced

section

variable {ω ε α β : Type}

/-- The rest of a block runs when nothing was raised. -/
def andThen (a : Traced ω ε α) (rest : α → Traced ω ε β) : Traced ω ε β :=
  match a.result with
  | .ok value => ⟨a.trace ++ (rest value).trace, (rest value).result⟩
  | .error e => ⟨a.trace, .error e⟩

instance : Monad (Traced ω ε) where
  pure value := ⟨[], .ok value⟩
  bind := andThen

/-- Something that may raise and records nothing. -/
def wait (x : Except ε α) : Traced ω ε α := ⟨[], x⟩

def record (w : ω) : Traced ω ε Unit := ⟨[w], .ok ()⟩

def raise (e : ε) : Traced ω ε α := ⟨[], .error e⟩

/-- A `try` block, and what its `except` clauses do. -/
def handle (a : Traced ω ε α) (except : ε → Traced ω ε α) : Traced ω ε α :=
  match a.result with
  | .ok _ => a
  | .error e => ⟨a.trace ++ (except e).trace, (except e).result⟩

variable {a : Traced ω ε α} {rest : α → Traced ω ε β} {good : ω → Prop}

/-! ## What a block comes to -/

theorem bind_ok {value : α} (done : a.result = .ok value) (rest : α → Traced ω ε β) :
    a >>= rest = ⟨a.trace ++ (rest value).trace, (rest value).result⟩ := by
  change a.andThen rest = _
  rw [andThen, done]

theorem bind_error {e : ε} (raised : a.result = .error e) (rest : α → Traced ω ε β) :
    a >>= rest = ⟨a.trace, .error e⟩ := by
  change a.andThen rest = _
  rw [andThen, raised]

theorem result_bind {last : β} : (a >>= rest).result = .ok last ↔
    ∃ value, a.result = .ok value ∧ (rest value).result = .ok last := by
  cases result : a.result with
  | error e => simp [bind_error result]
  | ok value => simp [bind_ok result]

/-- What a block records, one of its parts records. -/
theorem mem_trace_bind {w : ω} (recorded : w ∈ (a >>= rest).trace) : w ∈ a.trace ∨ ∃ value, w ∈ (rest value).trace := by
  cases result : a.result with
  | error e =>
    rw [bind_error result] at recorded
    exact .inl recorded
  | ok value =>
    rw [bind_ok result] at recorded
    exact (List.mem_append.mp recorded).imp_right fun later => ⟨value, later⟩

theorem wait_ok_bind (value : α) (rest : α → Traced ω ε β) : (wait (.ok value) : Traced ω ε α) >>= rest = rest value := by
  rw [bind_ok (rfl : (wait (.ok value) : Traced ω ε α).result = .ok value)]
  rfl

/-- A block whose value is thrown away. -/
theorem discard_bind (rest : Unit → Traced ω ε β) : (a >>= fun _ => pure ()) >>= rest = a >>= fun _ => rest () := by
  cases result : a.result with
  | error e => rw [bind_error result, bind_error result, bind_error rfl]
  | ok value =>
    have empty : (a >>= fun _ => (pure () : Traced ω ε Unit)) = ⟨a.trace, .ok ()⟩ := by
      rw [bind_ok result]
      exact congrArg (Traced.mk · _) (List.append_nil _)
    rw [empty, bind_ok rfl, bind_ok result]

/-! ## What holds of the value -/

/-- Where the block comes to its end, this holds of its value. -/
def Ends (P : α → Prop) (a : Traced ω ε α) : Prop := ∀ value, a.result = .ok value → P value

theorem ends_pure {P : α → Prop} {value : α} (holds : P value) : (pure value : Traced ω ε α).Ends P := by
  rintro _ ⟨⟩
  exact holds

theorem ends_bind {P : β → Prop} (then_ : ∀ value, (rest value).Ends P) : (a >>= rest).Ends P := by
  intro last done
  obtain ⟨value, -, done⟩ := result_bind.mp done
  exact then_ value last done

/-! ## What holds of all that was recorded -/

/-- A block that comes to its end has recorded only this. -/
def Sound (good : ω → Prop) (a : Traced ω ε α) : Prop := ∀ value, a.result = .ok value → ∀ w ∈ a.trace, good w

theorem sound_pure (value : α) : Sound good (pure value : Traced ω ε α) := by
  intro _ _ w member
  cases member

theorem sound_wait (x : Except ε α) : Sound good (wait x : Traced ω ε α) := by
  intro _ _ w member
  cases member

theorem sound_raise (e : ε) : Sound good (raise e : Traced ω ε α) := by
  intro _ done
  cases done

theorem sound_bind_of (first : Sound good a) (then_ : ∀ value, a.result = .ok value → Sound good (rest value)) :
    Sound good (a >>= rest) := by
  intro last done w member
  obtain ⟨value, result, done⟩ := result_bind.mp done
  rw [bind_ok result] at member
  obtain before | after := List.mem_append.mp member
  · exact first value result w before
  · exact then_ value result last done w after

theorem sound_bind (first : Sound good a) (then_ : ∀ value, Sound good (rest value)) : Sound good (a >>= rest) :=
  sound_bind_of first fun value _ => then_ value

end

end Traced

end McpSsh.Base
