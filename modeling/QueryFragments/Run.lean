import QueryFragments.Event

/-!
# Runs

A `Run α` is a computation that has been carried out: the events it reported, in order,
and its result, which is a value or a failure. Runs are sequenced by `bind`: the second
starts with the value of the first, its events follow those of the first, and a failure
of the first is the failure of both.
-/

namespace QueryFragments

universe u

/-- Events in order, and a result. -/
structure Run (α : Type u) where
  /-- the events, first to last -/
  log : List Event
  /-- the value, or why there is none -/
  result : Except Failure α

namespace Run

variable {α β γ : Type u}

/-- Succeed without an event. -/
protected def pure (a : α) : Run α := ⟨[], .ok a⟩

/-- Run `m`; if it succeeds, go on with its value. -/
protected def bind (m : Run α) (k : α → Run β) : Run β :=
  match m.result with
  | .ok a => ⟨m.log ++ (k a).log, (k a).result⟩
  | .error e => ⟨m.log, .error e⟩

instance : Monad Run where
  pure := Run.pure
  bind := Run.bind

/-- Report an event. -/
def emit (e : Event) : Run PUnit := ⟨[e], .ok ⟨⟩⟩

/-- Report an event and fail. -/
def abort (e : Event) (f : Failure) : Run α := ⟨[e], .error f⟩

/-- A result that was reached without an event. -/
def ofResult (r : Except Failure α) : Run α := ⟨[], r⟩

/-- A run that comes after other events. -/
def after (log : List Event) (m : Run α) : Run α := ⟨log ++ m.log, m.result⟩

/-- What a reader sees of the events: the level and the text of each, in order. -/
def lines (m : Run α) : List (Level × String) := m.log.map fun event => (event.level, event.text)

/-! ## Equations -/

theorem ext {m n : Run α} (hl : m.log = n.log) (hr : m.result = n.result) : m = n := by
  cases m; cases n
  subst hl; subst hr
  rfl

@[simp] theorem pure_eq (a : α) : (pure a : Run α) = ⟨[], .ok a⟩ := rfl

@[simp] theorem bind_ok (l : List Event) (a : α) (k : α → Run β) :
    (⟨l, .ok a⟩ : Run α) >>= k = ⟨l ++ (k a).log, (k a).result⟩ := rfl

@[simp] theorem bind_error (l : List Event) (e : Failure) (k : α → Run β) :
    (⟨l, .error e⟩ : Run α) >>= k = ⟨l, .error e⟩ := rfl

@[simp] theorem emit_bind (e : Event) (k : PUnit → Run β) :
    emit e >>= k = ⟨e :: (k ⟨⟩).log, (k ⟨⟩).result⟩ := rfl

@[simp] theorem abort_bind (e : Event) (f : Failure) (k : α → Run β) :
    abort e f >>= k = abort e f := rfl

theorem after_after (l l' : List Event) (m : Run α) : after l (after l' m) = after (l ++ l') m :=
  ext (List.append_assoc ..).symm rfl

/-- Sequencing is associative. -/
theorem bind_assoc (m : Run α) (k : α → Run β) (l : β → Run γ) :
    m >>= k >>= l = m >>= fun a => k a >>= l := by
  obtain ⟨log, r⟩ := m
  cases r with
  | error e => rfl
  | ok a =>
    rw [bind_ok, bind_ok]
    cases hk : k a with
    | mk log' r' => cases r' <;> simp

/-- Nothing need be done after the last step. -/
theorem id_map (m : Run α) : id <$> m = m := by
  obtain ⟨log, r⟩ := m
  cases r with
  | error e => rfl
  | ok a => exact ext (List.append_nil log) rfl

instance : LawfulMonad Run := LawfulMonad.mk' Run id_map (fun _ _ => rfl) bind_assoc

/-- A sequence succeeds exactly if both its parts do. -/
theorem bind_eq_ok_iff {m : Run α} {k : α → Run β} {b : β} :
    (m >>= k).result = .ok b ↔ ∃ a, m.result = .ok a ∧ (k a).result = .ok b := by
  obtain ⟨log, r⟩ := m
  cases r <;> simp

end Run

end QueryFragments
