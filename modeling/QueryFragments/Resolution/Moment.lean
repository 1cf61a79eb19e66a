import QueryFragments.Resolution

/-!
# Resolution step by step

The walk of a resolution, taken apart into single steps. A `Moment` is all that there is between
two steps: the path, the progress, the log, and a stack of what is still to be done. No step calls
itself or another one:

* to go into nested selections is to put them on the stack, above those that come after,
* to open a fragment is to add its name to the path and to put on the stack its selections and,
  below them, a note to close it,
* to close it is to take its name off the path again.

That such a run comes to an end is not built in; `Moment.advance` follows it for as many steps as
one likes.
-/

namespace QueryFragments

/-- One thing to be done. -/
inductive Task where
  /-- walk through these selections -/
  | walk (selections : List Selection)
  /-- close the fragment of this name, which was opened last -/
  | close (name : Name)

/-- The fragment that waits to be closed, if this is such a task. -/
def Task.closes? : Task → Option Name
  | .walk _ => none
  | .close n => some n

/-- A resolution between two steps. -/
structure Moment where
  /-- the fragments that are open, outermost first -/
  path : List Name
  /-- what has been achieved -/
  progress : Progress
  /-- what is to be done, next thing first -/
  tasks : List Task
  /-- the events so far -/
  log : List Event

namespace Moment

/-- Nothing is open or done, and a selection set is to be walked through. -/
def start (selections : List Selection) : Moment := ⟨[], .start, [.walk selections], []⟩

/-- The fragments whose expansion has begun and not ended, innermost first. -/
def expansions (s : Moment) : List Name := s.tasks.filterMap Task.closes?

/-- Deal with a spread of the name `n`, before the tasks in `rest`. -/
def meet (t : FragmentTable) (s : Moment) (n : Name) (rest : List Task) :
    Moment ⊕ Run Progress :=
  if n ∈ s.path then
    .inr ⟨s.log ++ [.cycle s.path n], .error (.spreadCycle s.path n)⟩
  else if n ∈ s.progress.expanded then
    .inl { s with progress := s.progress.record n, tasks := rest }
  else
    match t.get? n with
    | none => .inr ⟨s.log ++ [.undefined n], .error (.undefinedFragment n)⟩
    | some f => .inl ⟨s.path ++ [n], s.progress.record n,
        .walk f.selections :: .close n :: rest, s.log ++ [.expanding n]⟩

/-- One step: to the next moment, or to the end of the run. -/
def next (t : FragmentTable) (s : Moment) : Moment ⊕ Run Progress :=
  match s.tasks with
  | [] => .inr ⟨s.log, .ok s.progress⟩
  | .walk [] :: rest => .inl { s with tasks := rest }
  | .walk (.field _ _ below :: after) :: rest =>
    .inl { s with tasks := .walk below :: .walk after :: rest }
  | .walk (.inlineFragment _ below :: after) :: rest =>
    .inl { s with tasks := .walk below :: .walk after :: rest }
  | .walk (.spread n :: after) :: rest => s.meet t n (.walk after :: rest)
  | .close n :: rest =>
    .inl { s with path := s.path.dropLast, progress := s.progress.finish n, tasks := rest }

/-- Go on for `k` steps: to the moment after them, or to the end if it comes before. -/
def advance (t : FragmentTable) : Nat → Moment → Moment ⊕ Run Progress
  | 0, s => .inl s
  | k + 1, s =>
    match s.next t with
    | .inl s' => s'.advance t k
    | .inr r => .inr r

/-! ## Equation lemmas -/

section Equations

variable {t : FragmentTable} {s : Moment} {n : Name} {rest : List Task}

/-- **Cycle**: a name on the path ends the run. -/
theorem meet_of_mem_path (hn : n ∈ s.path) :
    s.meet t n rest = .inr ⟨s.log ++ [.cycle s.path n], .error (.spreadCycle s.path n)⟩ := by
  rw [meet, if_pos hn]

/-- **Done**: a fragment that was expanded is only recorded. -/
theorem meet_of_mem_expanded (hn : n ∉ s.path) (he : n ∈ s.progress.expanded) :
    s.meet t n rest = .inl { s with progress := s.progress.record n, tasks := rest } := by
  rw [meet, if_neg hn, if_pos he]

/-- **Undefined**: a name without a fragment ends the run. -/
theorem meet_of_get?_eq_none (hn : n ∉ s.path) (he : n ∉ s.progress.expanded)
    (hf : t.get? n = none) :
    s.meet t n rest = .inr ⟨s.log ++ [.undefined n], .error (.undefinedFragment n)⟩ := by
  rw [meet, if_neg hn, if_neg he, hf]

/-- **Expansion**: otherwise the fragment is opened. -/
theorem meet_of_get?_eq_some {f : Fragment} (hn : n ∉ s.path) (he : n ∉ s.progress.expanded)
    (hf : t.get? n = some f) :
    s.meet t n rest = .inl ⟨s.path ++ [n], s.progress.record n,
      .walk f.selections :: .close n :: rest, s.log ++ [.expanding n]⟩ := by
  rw [meet, if_neg hn, if_neg he, hf]

end Equations

end Moment

end QueryFragments
