import Mathlib
import QueryFragments.Proofs.Ending

/-!
# Walks leave the path as they found it

A walk through a selection set may open fragments and close them again, any number deep. What its
caller can rely on when it returns, and what the walk itself can rely on when it begins:

* `Moment.Valid`: path and progress fit together. The path repeats no name, what is on it is not
  expanded yet, the names met are those expanded or on the path, and the expanded ones are defined
  and **closed under spreads**.
* `Moment.Covered`: what is missing for that is still to come. It carries the closure through the
  steps between the opening and the closing of a fragment (`Moment.Sound` is all that a step keeps).
* `Moment.Returns`: from the beginning of a walk to the first moment at which only what comes after
  it is left. `Moment.collect_ok_iff_returns`: the recursive walk ends well exactly if there is one.
* `Document.resolve?_keeps_valid`: at every moment of every resolution path and progress are valid,
  and a walk that returns leaves the path as it was, loses nothing and has expanded what it spreads.
-/

namespace QueryFragments

/-! ## Progress is never lost -/

namespace Progress

variable {p p' p'' : Progress}

/-- `p'` has all that `p` has. -/
structure Grows (p p' : Progress) : Prop where
  /-- what is expanded stays expanded -/
  expanded : ∀ n ∈ p.expanded, n ∈ p'.expanded
  /-- what was met stays met -/
  recorded : ∀ n ∈ p.recorded, n ∈ p'.recorded

namespace Grows

theorem refl (p : Progress) : p.Grows p := ⟨fun _ hn => hn, fun _ hn => hn⟩

theorem trans (h : p.Grows p') (h' : p'.Grows p'') : p.Grows p'' where
  expanded n hn := h'.expanded n (h.expanded n hn)
  recorded n hn := h'.recorded n (h.recorded n hn)

theorem record (p : Progress) (n : Name) : p.Grows (p.record n) where
  expanded _ hm := hm
  recorded _ hm := mem_record.2 (.inr hm)

theorem finish (p : Progress) (n : Name) : p.Grows (p.finish n) where
  expanded _ hm := mem_finish.2 (.inr hm)
  recorded _ hm := hm

end Grows

end Progress

namespace Moment

variable {t : FragmentTable} {s s' s₁ : Moment} {goal pending pending' : List Name}
  {tasks rest : List Task} {expanded expanded' : NameSet} {q : Progress}

theorem Step.grows (h : Step t s s') : s.progress.Grows s'.progress := by
  cases h with
  | walked => exact .refl _
  | field => exact .refl _
  | inlineFragment => exact .refl _
  | skipped => exact .record _ _
  | opened => exact .record _ _
  | closed => exact .finish _ _

/-! ## What is still to come -/

/-- When the names in `pending` have been expanded and the tasks done, nothing is missing: what a
fragment spreads is expanded by the time it is closed, and the names in `goal` are in the end. -/
def Covered (t : FragmentTable) (expanded : NameSet) (goal : List Name) :
    List Name → List Task → Prop
  | pending, [] => ∀ m ∈ goal, m ∈ expanded ∨ m ∈ pending
  | pending, .walk selections :: rest =>
    Covered t expanded goal (pending ++ Selection.spreadsIn selections) rest
  | pending, .close n :: rest =>
    (∀ f, t.get? n = some f → ∀ m ∈ f.spreads, m ∈ expanded ∨ m ∈ pending) ∧
      -- once it is closed, the fragment itself is expanded
      Covered t expanded goal [n] rest

namespace Covered

/-- More may be expanded, and a name that is expanded need not be waited for. -/
theorem mono (hexpanded : ∀ m ∈ expanded, m ∈ expanded')
    (hpending : ∀ m ∈ pending, m ∈ expanded' ∨ m ∈ pending')
    (h : Covered t expanded goal pending tasks) : Covered t expanded' goal pending' tasks := by
  induction tasks generalizing pending pending' with
  | nil =>
    intro m hm
    rcases h m hm with hm | hm
    · exact .inl (hexpanded m hm)
    · exact hpending m hm
  | cons task rest ih =>
    cases task with
    | walk selections =>
      refine ih ?_ h
      intro m hm
      rcases List.mem_append.1 hm with hm | hm
      · exact (hpending m hm).imp_right (List.mem_append_left _)
      · exact .inr (List.mem_append_right _ hm)
    | close n =>
      obtain ⟨hclose, hrest⟩ := h
      refine ⟨?_, ih (fun m hm => .inr hm) hrest⟩
      intro f hf m hm
      rcases hclose f hf m hm with hm | hm
      · exact .inl (hexpanded m hm)
      · exact hpending m hm

/-- **Step lemma**: what a step takes off the tasks is expanded or put back. -/
theorem step (hs : Covered t s.progress.expanded goal [] s.tasks) (h : Step t s s') :
    Covered t s'.progress.expanded goal [] s'.tasks := by
  cases h with
  | walked => simpa [Covered] using hs
  | field => simpa [Covered] using hs
  | inlineFragment => simpa [Covered] using hs
  | @skipped path p n after rest log hn he =>
    simp only [Covered, Selection.spreadsIn_cons, Selection.spreads_spread, List.nil_append,
      List.singleton_append] at hs ⊢
    refine mono (fun m hm => hm) ?_ hs
    intro m hm
    rcases List.mem_cons.1 hm with rfl | hm
    · exact .inl he
    · exact .inr hm
  | @opened path p n f after rest log hn he hf =>
    simp only [Covered, Selection.spreadsIn_cons, Selection.spreads_spread, List.nil_append,
      List.singleton_append] at hs ⊢
    refine ⟨?_, hs⟩
    intro g hg m hm
    obtain rfl : f = g := Option.some.inj (hf.symm.trans hg)
    exact .inr hm
  | @closed path p n rest log =>
    obtain ⟨-, hrest⟩ := hs
    refine mono (Progress.Grows.finish p n).expanded ?_ hrest
    intro m hm
    exact .inl (Progress.mem_finish.2 (.inl (List.mem_singleton.1 hm)))

/-- With nothing left to do, nothing is missing. -/
theorem expanded_of_nil (h : Covered t expanded goal [] []) : ∀ m ∈ goal, m ∈ expanded := by
  intro m hm
  rcases h m hm with hm | hm
  · exact hm
  · exact absurd hm List.not_mem_nil

end Covered

/-! ## The invariant -/

/-- Path and progress fit together, and with the document. -/
structure Valid (d : Document) (s : Moment) : Prop where
  /-- no fragment is open twice -/
  nodup : s.path.Nodup
  /-- an open fragment is not expanded yet -/
  apart : ∀ n ∈ s.path, n ∉ s.progress.expanded
  /-- the names met are those expanded or open -/
  recorded_iff : ∀ n, n ∈ s.progress.recorded ↔ n ∈ s.progress.expanded ∨ n ∈ s.path
  /-- an expanded fragment is defined, and what its last definition spreads is expanded -/
  closed : ∀ n ∈ s.progress.expanded, ∃ f, d.lastFragment? n = some f ∧
    ∀ m ∈ f.spreads, m ∈ s.progress.expanded

/-- All that every step of a resolution keeps. -/
structure Sound (t : FragmentTable) (goal : List Name) (s : Moment) : Prop where
  /-- the path shows the expansions that are under way -/
  orderly : s.Orderly t
  /-- the progress fits the path -/
  consistent : s.progress.Consistent t s.path
  /-- what is missing is still to come -/
  covered : Covered t s.progress.expanded goal [] s.tasks

namespace Sound

theorem start (t : FragmentTable) (selections : List Selection) :
    (start selections).Sound t (Selection.spreadsIn selections) where
  orderly := .start t selections
  consistent := .start t
  covered _ hm := .inr hm

/-- **Step lemma**: to close a fragment takes all three parts. It is the last one on the path, it is
there once, and what it spreads is expanded. -/
theorem step (hs : s.Sound t goal) (h : Step t s s') : s'.Sound t goal := by
  refine ⟨hs.orderly.step h, ?_, hs.covered.step h⟩
  obtain ⟨horderly, hconsistent, hcovered⟩ := hs
  cases h with
  | walked => exact hconsistent
  | field => exact hconsistent
  | inlineFragment => exact hconsistent
  | skipped hn he => exact hconsistent.record he
  | opened hn he hf => exact hconsistent.opened he
  | @closed path p n rest log =>
    obtain ⟨hclose, -⟩ := hcovered
    have hpath := horderly.path_eq_of_close
    obtain ⟨hnodup, hdefined, -⟩ := horderly
    subst hpath
    rw [List.dropLast_concat]
    obtain ⟨f, hf⟩ := hdefined n (List.mem_append_right _ (List.mem_singleton.2 rfl))
    have hn : n ∉ (rest.filterMap Task.closes?).reverse := by
      intro hn
      exact (List.nodup_append.1 hnodup).2.2 n hn n (List.mem_singleton.2 rfl) rfl
    refine hconsistent.finished hn hf ?_
    intro m hm
    rcases hclose f hf m hm with hm | hm
    · exact hm
    · exact absurd hm List.not_mem_nil

/-- **Run lemma**: so it is at every moment. -/
theorem advance {k : Nat} (hs : s.Sound t goal) (h : s.advance t k = .inl s') : s'.Sound t goal :=
  advance_of_step (fun _ _ => step) hs h

theorem valid {d : Document} (hs : s.Sound d.table goal) : s.Valid d := by
  obtain ⟨horderly, hconsistent, -⟩ := hs
  refine ⟨horderly.nodup, hconsistent.apart, hconsistent.recorded_iff, ?_⟩
  intro n hn
  obtain ⟨f, hf⟩ := (hconsistent.grounded n hn).isSome
  have hlast : d.lastFragment? n = some f := by
    rw [← Document.get?_table]
    exact hf
  exact ⟨f, hlast, hconsistent.closed n f hn hf⟩

end Sound

/-! ## From the beginning of a walk to its return -/

/-- `Returns t rest s s'`: step by step from `s` to `s'`, the first moment at which only `rest` is
left to do. -/
inductive Returns (t : FragmentTable) (rest : List Task) : Moment → Moment → Prop where
  /-- only `rest` is left -/
  | done {s : Moment} (hs : s.tasks = rest) : Returns t rest s s
  /-- there is more to do -/
  | step {s s₁ s' : Moment} (hs : s.tasks ≠ rest) (hstep : Step t s s₁)
      (hreturns : Returns t rest s₁ s') : Returns t rest s s'

namespace Returns

theorem tasks_eq (h : Returns t rest s s') : s'.tasks = rest := by
  induction h with
  | done hs => exact hs
  | step _ _ _ ih => exact ih

/-- What every step keeps is kept until the return. -/
theorem of_step {P : Moment → Prop} (hstep : ∀ s s', P s → Step t s s' → P s')
    (h : Returns t rest s s') (hs : P s) : P s' := by
  induction h with
  | done => exact hs
  | step _ h _ ih => exact ih (hstep _ _ hs h)

theorem grows (h : Returns t rest s s') : s.progress.Grows s'.progress :=
  h.of_step (P := fun s' => s.progress.Grows s'.progress)
    (fun _ _ hs hstep => hs.trans hstep.grows) (.refl _)

/-- The path shows the expansions under way, and those of the walk are over. -/
theorem path_eq {below : List Selection} (h : Returns t rest s s') (hs : s.Orderly t)
    (htasks : s.tasks = .walk below :: rest) : s'.path = s.path := by
  have hs' : s'.Orderly t := h.of_step (fun _ _ => Orderly.step) hs
  have hexpansions : s'.expansions = s.expansions := by
    rw [expansions, expansions, h.tasks_eq, htasks]
    rfl
  rw [hs.expansions_eq, hs'.expansions_eq] at hexpansions
  exact List.reverse_injective hexpansions

end Returns

/-- The same moment with more to do afterwards. -/
def before (s : Moment) (rest : List Task) : Moment := { s with tasks := s.tasks ++ rest }

/-- What is to be done afterwards plays no part in a step. -/
theorem Step.before (h : Step t s s') (rest : List Task) :
    Step t (s.before rest) (s'.before rest) := by
  cases h with
  | walked => exact .walked
  | field => exact .field
  | inlineFragment => exact .inlineFragment
  | skipped hn he => exact .skipped hn he
  | opened hn he hf => exact .opened hn he hf
  | closed => exact .closed

theorem Step.tasks_ne_nil (h : Step t s s') : s.tasks ≠ [] := by
  cases h <;> exact List.cons_ne_nil _ _

/-- A step with more to do afterwards is a step without it, unless nothing else is left. -/
theorem Step.of_before (h : Step t (s.before rest) s') (hs : s.tasks ≠ []) :
    ∃ s₁, Step t s s₁ ∧ s' = s₁.before rest := by
  obtain ⟨path, p, tasks, log⟩ := s
  cases tasks with
  | nil => exact absurd rfl hs
  | cons task tasks =>
    simp only [Moment.before, List.cons_append] at h
    cases h with
    | walked => exact ⟨_, .walked, rfl⟩
    | field => exact ⟨_, .field, rfl⟩
    | inlineFragment => exact ⟨_, .inlineFragment, rfl⟩
    | skipped hn he => exact ⟨_, .skipped hn he, rfl⟩
    | opened hn he hf => exact ⟨_, .opened hn he hf, rfl⟩
    | closed => exact ⟨_, .closed, rfl⟩

theorem before_tasks_eq_iff : (s.before rest).tasks = rest ↔ s.tasks = [] :=
  List.append_left_eq_self

/-- **A walk on its own**: a return is a run of the tasks above `rest` to their end, and all that
every step keeps on the way is kept. -/
theorem Returns.exists_nil {P : Moment → Prop} (hstep : ∀ s s', P s → Step t s s' → P s')
    (h : Returns t rest (s.before rest) s') (hs : P s) :
    ∃ s₁, P s₁ ∧ s₁.tasks = [] ∧ s' = s₁.before rest := by
  generalize hbefore : s.before rest = s₀ at h
  induction h generalizing s with
  | done htasks =>
    subst hbefore
    exact ⟨s, hs, before_tasks_eq_iff.1 htasks, rfl⟩
  | step htasks h _ ih =>
    subst hbefore
    obtain ⟨s₁, h₁, rfl⟩ := h.of_before fun hnil => htasks (before_tasks_eq_iff.2 hnil)
    exact ih (hstep _ _ hs h₁) rfl

/-- Conversely, a run of tasks to their end returns to what is to be done afterwards. -/
theorem returns_of_advance {k : Nat} (h : s.advance t k = .inl s') (hs' : s'.tasks = [])
    (rest : List Task) : Returns t rest (s.before rest) (s'.before rest) := by
  induction k generalizing s with
  | zero =>
    obtain rfl := Sum.inl.inj h
    exact .done (before_tasks_eq_iff.2 hs')
  | succ k ih =>
    obtain ⟨s₁, hstep, h⟩ := advance_succ_eq_inl_iff.1 h
    exact .step (fun hrest => hstep.tasks_ne_nil (before_tasks_eq_iff.1 hrest))
      (hstep.before rest) (ih h)

/-! ## Returns and the recursive walk -/

/-- Only where nothing is left to do a run ends well. -/
theorem next_eq_inr_ok {r : Run Progress} (h : s.next t = .inr r) (hr : r.result = .ok q) :
    s.tasks = [] ∧ s.progress = q := by
  rcases next_cases t s with ⟨s₁, hnext, -⟩ | ⟨hnil, hnext⟩ | ⟨log, e, hnext⟩
  · cases h.symm.trans hnext
  · obtain rfl := Sum.inr.inj (h.symm.trans hnext)
    exact ⟨hnil, Except.ok.inj hr⟩
  · obtain rfl := Sum.inr.inj (h.symm.trans hnext)
    cases hr

/-- A run that ends well comes to a moment at which nothing is left to do. -/
theorem exists_advance_of_ok {k : Nat} {r : Run Progress} (h : s.advance t k = .inr r)
    (hr : r.result = .ok q) : ∃ j s', s.advance t j = .inl s' ∧ s'.tasks = [] ∧ s'.progress = q := by
  induction k generalizing s with
  | zero => cases h
  | succ k ih =>
    rw [advance] at h
    cases hnext : s.next t with
    | inl s₁ =>
      rw [hnext] at h
      obtain ⟨j, s', hj, hs'⟩ := ih h
      exact ⟨j + 1, s', advance_succ_eq_inl_iff.2 ⟨s₁, step_of_next hnext, hj⟩, hs'⟩
    | inr r' =>
      rw [hnext] at h
      obtain rfl := Sum.inr.inj h
      exact ⟨0, s, rfl, next_eq_inr_ok hnext hr⟩

/-- **Steps and recursion agree on every walk**: the recursive walk succeeds exactly if the steps
return from it, and with the same progress. -/
theorem collect_ok_iff_returns {below : List Selection} (hs : s.tasks = .walk below :: rest) :
    (collect t s.path s.progress below).result = .ok q ↔
      ∃ s', Returns t rest s s' ∧ s'.progress = q := by
  obtain ⟨path, p, tasks, log⟩ := s
  obtain rfl : tasks = .walk below :: rest := hs
  -- the walk on its own, with nothing to do afterwards
  have hwalk : run t ⟨path, p, [.walk below], log⟩ = .after log (collect t path p below) :=
    congrArg (Run.after log) (bind_pure (collect t path p below))
  refine ⟨?_, ?_⟩
  · intro hq
    obtain ⟨k, r, hk⟩ := halts_walk t path below p [] log fun _ _ => .of_inr rfl
    have hrun := run_advance t k ⟨path, p, [.walk below], log⟩
    rw [hk, hwalk] at hrun
    have hr : r.result = .ok q := (congrArg Run.result hrun).trans hq
    obtain ⟨j, s', hj, hnil, hprogress⟩ := exists_advance_of_ok hk hr
    exact ⟨s'.before rest, returns_of_advance hj hnil rest, hprogress⟩
  · rintro ⟨s', hreturns, hq⟩
    have hstep : ∀ s₁ s₂, run t s₁ = .after log (collect t path p below) → Step t s₁ s₂ →
        run t s₂ = .after log (collect t path p below) := by
      intro s₁ s₂ hs₁ h
      have hnext := run_next t s₁
      rw [next_of_step h, hs₁] at hnext
      exact hnext
    obtain ⟨s₁, hrun, hnil, rfl⟩ :=
      @Returns.exists_nil t ⟨path, p, [.walk below], log⟩ s' rest _ hstep hreturns hwalk
    have hresult := congrArg Run.result hrun
    rw [run, hnil] at hresult
    exact hresult.symm.trans (congrArg Except.ok hq)

/-- When a walk returns, all that it spreads is expanded. -/
theorem Returns.spreads_expanded {below : List Selection} (h : Returns t rest s s')
    (hs : s.tasks = .walk below :: rest) :
    ∀ n ∈ Selection.spreadsIn below, n ∈ s'.progress.expanded := by
  obtain ⟨path, p, tasks, log⟩ := s
  obtain rfl : tasks = .walk below :: rest := hs
  obtain ⟨s₁, hcovered, hnil, rfl⟩ := @Returns.exists_nil t ⟨path, p, [.walk below], log⟩ s' rest
    (fun s => Covered t s.progress.expanded (Selection.spreadsIn below) [] s.tasks)
    (fun _ _ => Covered.step) h (fun _ hm => .inr hm)
  rw [hnil] at hcovered
  exact hcovered.expanded_of_nil

end Moment

/-! ## Resolutions of a document -/

namespace Document

/-- **Every resolution keeps path and progress valid.**

* At every moment, so also when a walk begins and when it returns: no name is on the path twice,
  none of them is expanded, the names met are those expanded or on the path, and what is expanded is
  defined and closed under spreads.
* Whenever a selection set is to be walked through and the rest is to be done afterwards, the walk
  succeeds exactly if it returns, and then with the progress made by then. When it returns, the path
  is as it was, nothing that was expanded or met is lost, and all that the selection set spreads is
  expanded. -/
theorem resolve?_keeps_valid (d : Document) (selections : List Selection) :
    (∀ k s, (Moment.start selections).advance d.table k = .inl s → s.Valid d) ∧
    ∀ k s below rest, (Moment.start selections).advance d.table k = .inl s →
      s.tasks = .walk below :: rest →
      (∀ q, (collect d.table s.path s.progress below).result = .ok q ↔
        ∃ s', Moment.Returns d.table rest s s' ∧ s'.progress = q) ∧
      ∀ s', Moment.Returns d.table rest s s' →
        s'.Valid d ∧ s'.path = s.path ∧
        (∀ n ∈ s.progress.expanded, n ∈ s'.progress.expanded) ∧
        (∀ n ∈ s.progress.recorded, n ∈ s'.progress.recorded) ∧
        ∀ n ∈ Selection.spreadsIn below, n ∈ s'.progress.expanded := by
  have hsound : ∀ k s, (Moment.start selections).advance d.table k = .inl s →
      s.Sound d.table (Selection.spreadsIn selections) := by
    intro k s hs
    exact (Moment.Sound.start d.table selections).advance hs
  refine ⟨fun k s hs => (hsound k s hs).valid, ?_⟩
  intro k s below rest hs htasks
  refine ⟨fun q => Moment.collect_ok_iff_returns htasks, ?_⟩
  intro s' hreturns
  have hs' : s'.Sound d.table (Selection.spreadsIn selections) :=
    hreturns.of_step (fun _ _ => Moment.Sound.step) (hsound k s hs)
  have hpath : s'.path = s.path := hreturns.path_eq (hsound k s hs).orderly htasks
  obtain ⟨hexpanded, hrecorded⟩ := hreturns.grows
  exact ⟨hs'.valid, hpath, hexpanded, hrecorded, hreturns.spreads_expanded htasks⟩

/-- Fragments that lead to one another in two ways. -/
def entwined : Document := ⟨[
  .fragment ⟨"A", "T", [.field none "x" [.spread "B"], .spread "C"]⟩,
  .fragment ⟨"B", "T", [.inlineFragment none [.spread "C"]]⟩,
  .fragment ⟨"C", "T", [.field none "id" []]⟩]⟩

/-- Within `A`, the walk through the field opens and closes two fragments and leaves `A` open. -/
theorem resolve?_keeps_valid_entwined :
    ∃ s s', (Moment.start [.spread "A"]).advance entwined.table 2 = .inl s ∧
      s.tasks = [.walk [.spread "B"], .walk [.spread "C"], .close "A", .walk []] ∧
      s.Valid entwined ∧ s.path = ["A"] ∧
      Moment.Returns entwined.table [.walk [.spread "C"], .close "A", .walk []] s s' ∧
      s'.Valid entwined ∧ s'.path = ["A"] ∧ s'.progress.expanded.toList = ["B", "C"] ∧
      "B" ∈ s'.progress.expanded := by
  obtain ⟨hvalid, hwalk⟩ := resolve?_keeps_valid entwined [.spread "A"]
  have hs : (Moment.start [.spread "A"]).advance entwined.table 2 = .inl
      ⟨["A"], Progress.start.record "A",
        [.walk [.spread "B"], .walk [.spread "C"], .close "A", .walk []],
        [.expanding "A"]⟩ := by cbv
  obtain ⟨hiff, hreturn⟩ := hwalk 2 _ _ _ hs rfl
  have hcollect : (collect entwined.table ["A"] (Progress.start.record "A")
      [.spread "B"]).result = .ok ⟨(∅ : NameSet).insertAll ["A", "B", "C"],
        (∅ : NameSet).insertAll ["B", "C"]⟩ := by cbv
  obtain ⟨s', hs', hprogress⟩ := (hiff _).1 hcollect
  obtain ⟨hvalid', hpath, -, -, hexpanded⟩ := hreturn s' hs'
  refine ⟨_, s', hs, rfl, hvalid 2 _ hs, rfl, hs', hvalid', hpath, ?_, hexpanded "B" (by simp)⟩
  rw [hprogress]
  cbv

end Document

end QueryFragments
