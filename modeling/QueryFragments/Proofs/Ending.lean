import Mathlib
import QueryFragments.Resolution.Moment
import QueryFragments.Proofs.Failures

/-!
# Every resolution ends

A resolution jumps from a spread to a definition that may stand anywhere and be of any size, so no
part of the document gets smaller on the way. What gets fewer are the fragments that are not open.
Taken step by step:

* `Moment.run`: the run that a moment is on the way to, by the recursive walk.
  `Moment.run_next`: **a step does not change it**, so steps and recursion are the same resolution.
* `Moment.halts_walk`: every walk comes to an end, by induction over paths and, on one path, over
  the selections.
* `Moment.Step`: all that a step can do. `Moment.Orderly` is what every step keeps: the path shows
  the expansions under way, each of another defined fragment.
* `Document.resolve?_ends`: a resolution ends, and **expansions are never nested deeper** than the
  document has fragment names.
-/

namespace QueryFragments

namespace Moment

variable {t : FragmentTable} {s s' : Moment} {r : Run Progress}

/-! ## Steps and recursion -/

/-- What tasks come to if every walk is carried out at once. -/
def perform (t : FragmentTable) : List Name → Progress → List Task → Run Progress
  | _, p, [] => pure p
  | path, p, .walk selections :: rest => do
    let p ← collect t path p selections
    perform t path p rest
  | path, p, .close n :: rest => perform t path.dropLast (p.finish n) rest

/-- The whole run that a moment belongs to. -/
def run (t : FragmentTable) (s : Moment) : Run Progress :=
  .after s.log (perform t s.path s.progress s.tasks)

theorem run_start (t : FragmentTable) (selections : List Selection) :
    (start selections).run t = collect t [] .start selections :=
  bind_pure (collect t [] .start selections)

/-- A spread is dealt with as in the recursion. -/
theorem run_meet (t : FragmentTable) (s : Moment) (n : Name) (rest : List Task) :
    Sum.elim (run t) id (s.meet t n rest) =
      .after s.log (visit t s.path s.progress n >>= fun p => perform t s.path p rest) := by
  by_cases hn : n ∈ s.path
  · rw [meet_of_mem_path hn, visit_of_mem_path hn]
    rfl
  by_cases he : n ∈ s.progress.expanded
  · rw [meet_of_mem_expanded hn he, visit_of_mem_expanded hn he]
    rfl
  cases hf : t.get? n with
  | none =>
    rw [meet_of_get?_eq_none hn he hf, visit_of_get?_eq_none hn he hf]
    rfl
  | some f =>
    -- the note that is left on the stack takes the name off the path again
    have hclose : ∀ q, perform t (s.path ++ [n]) q (.close n :: rest) =
        perform t s.path (q.finish n) rest := by
      intro q
      rw [perform, List.dropLast_concat]
    have hwalk : perform t (s.path ++ [n]) (s.progress.record n)
          (.walk f.selections :: .close n :: rest) =
        collect t (s.path ++ [n]) (s.progress.record n) f.selections >>= fun q =>
          pure (q.finish n) >>= fun p => perform t s.path p rest := by
      rw [perform]
      simp only [hclose, pure_bind]
    rw [meet_of_get?_eq_some hn he hf, visit_of_get?_eq_some hn he hf, bind_assoc]
    simp only [bind_assoc]
    rw [← hwalk]
    exact (Run.after_after s.log [.expanding n] _).symm

/-- **A step does not change the run.** -/
theorem run_next (t : FragmentTable) (s : Moment) :
    Sum.elim (run t) id (s.next t) = s.run t := by
  obtain ⟨path, p, tasks, log⟩ := s
  match tasks with
  | [] => exact Run.ext (List.append_nil log).symm rfl
  | .close n :: rest => rfl
  | .walk [] :: rest =>
    rw [run, perform, collect_nil, pure_bind]
    rfl
  | .walk (.field alias? name below :: after) :: rest =>
    rw [run, perform, collect_field, bind_assoc]
    rfl
  | .walk (.inlineFragment typeCondition? below :: after) :: rest =>
    rw [run, perform, collect_inlineFragment, bind_assoc]
    rfl
  | .walk (.spread n :: after) :: rest =>
    rw [next, run_meet, run, perform, collect_spread, bind_assoc]
    rfl

/-- However far one goes, the run stays the same. -/
theorem run_advance (t : FragmentTable) (k : Nat) (s : Moment) :
    Sum.elim (run t) id (s.advance t k) = s.run t := by
  induction k generalizing s with
  | zero => rfl
  | succ k ih =>
    have hnext := run_next t s
    rw [advance]
    cases h : s.next t with
    | inl s' =>
      rw [h] at hnext
      exact (ih s').trans hnext
    | inr r =>
      rw [h] at hnext
      exact hnext

/-! ## The end -/

/-- The run comes to an end from here. -/
def Halts (t : FragmentTable) (s : Moment) : Prop := ∃ k r, s.advance t k = .inr r

theorem Halts.of_inl (h : s.next t = .inl s') (hs' : Halts t s') : Halts t s := by
  obtain ⟨k, r, hk⟩ := hs'
  refine ⟨k + 1, r, ?_⟩
  rw [advance, h]
  exact hk

theorem Halts.of_inr (h : s.next t = .inr r) : Halts t s := by
  refine ⟨1, r, ?_⟩
  rw [advance, h]

section Walks

variable {path : List Name}

/-- A spread comes to an end if what its fragment selects does, on the longer path, and what comes
after the spread does, on this one. -/
theorem halts_spread {n : Name} {after : List Selection} {rest : List Task}
    (hopen : ∀ f, n ∉ path → t.get? n = some f → ∀ p rest log,
      (∀ q log', Halts t ⟨path ++ [n], q, rest, log'⟩) →
        Halts t ⟨path ++ [n], p, .walk f.selections :: rest, log⟩)
    (hafter : ∀ q log', Halts t ⟨path, q, .walk after :: rest, log'⟩) (p : Progress)
    (log : List Event) : Halts t ⟨path, p, .walk (.spread n :: after) :: rest, log⟩ := by
  have hmeet : next t ⟨path, p, .walk (.spread n :: after) :: rest, log⟩ =
      meet t ⟨path, p, .walk (.spread n :: after) :: rest, log⟩ n (.walk after :: rest) := rfl
  by_cases hn : n ∈ path
  · exact .of_inr (hmeet.trans (meet_of_mem_path hn))
  by_cases he : n ∈ p.expanded
  · exact .of_inl (hmeet.trans (meet_of_mem_expanded hn he)) (hafter _ _)
  cases hf : t.get? n with
  | none => exact .of_inr (hmeet.trans (meet_of_get?_eq_none hn he hf))
  | some f =>
    refine .of_inl (hmeet.trans (meet_of_get?_eq_some hn he hf)) (hopen f hn hf _ _ _ ?_)
    intro q log'
    -- the fragment is closed, and the path is as before
    refine .of_inl rfl ?_
    rw [List.dropLast_concat]
    exact hafter _ _

/-- On one path, a walk comes to an end if walks on longer paths do: by induction on the
selections, those that come after a nested set being part of what is left to do. -/
theorem halts_walk_of_opened
    (hopen : ∀ n f, n ∉ path → t.get? n = some f → ∀ p rest log,
      (∀ q log', Halts t ⟨path ++ [n], q, rest, log'⟩) →
        Halts t ⟨path ++ [n], p, .walk f.selections :: rest, log⟩) :
    (selections : List Selection) → ∀ p rest log,
      (∀ q log', Halts t ⟨path, q, rest, log'⟩) →
        Halts t ⟨path, p, .walk selections :: rest, log⟩
  | [], p, _, log, hrest => .of_inl rfl (hrest p log)
  | .field _ _ below :: after, p, rest, log, hrest =>
    .of_inl rfl (halts_walk_of_opened hopen below p (.walk after :: rest) log fun q log' =>
      halts_walk_of_opened hopen after q rest log' hrest)
  | .inlineFragment _ below :: after, p, rest, log, hrest =>
    .of_inl rfl (halts_walk_of_opened hopen below p (.walk after :: rest) log fun q log' =>
      halts_walk_of_opened hopen after q rest log' hrest)
  | .spread n :: after, p, rest, log, hrest =>
    halts_spread (hopen n) (fun q log' => halts_walk_of_opened hopen after q rest log' hrest) p log

/-- **Every walk comes to an end**, if what is left to do after it does. -/
theorem halts_walk (t : FragmentTable) (path : List Name) (selections : List Selection)
    (p : Progress) (rest : List Task) (log : List Event)
    (hrest : ∀ q log', Halts t ⟨path, q, rest, log'⟩) :
    Halts t ⟨path, p, .walk selections :: rest, log⟩ := by
  induction path using t.open_induction generalizing selections p rest log with
  | opened path ih =>
    refine halts_walk_of_opened ?_ selections p rest log hrest
    intro n f hn hf p rest log hrest
    exact ih n f hn hf f.selections p rest log hrest

end Walks

theorem halts_start (t : FragmentTable) (selections : List Selection) :
    Halts t (start selections) :=
  halts_walk t [] selections .start [] [] fun _ _ => .of_inr rfl

/-! ## What every step keeps -/

/-- All that a step can do. -/
inductive Step (t : FragmentTable) : Moment → Moment → Prop where
  /-- a selection set has been walked through -/
  | walked {path p rest log} : Step t ⟨path, p, .walk [] :: rest, log⟩ ⟨path, p, rest, log⟩
  /-- go into the selections of a field -/
  | field {path p alias? name below after rest log} :
      Step t ⟨path, p, .walk (.field alias? name below :: after) :: rest, log⟩
        ⟨path, p, .walk below :: .walk after :: rest, log⟩
  /-- go into a fragment written in place -/
  | inlineFragment {path p typeCondition? below after rest log} :
      Step t ⟨path, p, .walk (.inlineFragment typeCondition? below :: after) :: rest, log⟩
        ⟨path, p, .walk below :: .walk after :: rest, log⟩
  /-- pass over a fragment that was expanded before -/
  | skipped {path p n after rest log} (hn : n ∉ path) (he : n ∈ p.expanded) :
      Step t ⟨path, p, .walk (.spread n :: after) :: rest, log⟩
        ⟨path, p.record n, .walk after :: rest, log⟩
  /-- open a fragment that is neither open nor expanded -/
  | opened {path p n f after rest log} (hn : n ∉ path) (he : n ∉ p.expanded)
      (hf : t.get? n = some f) :
      Step t ⟨path, p, .walk (.spread n :: after) :: rest, log⟩
        ⟨path ++ [n], p.record n, .walk f.selections :: .close n :: .walk after :: rest,
          log ++ [.expanding n]⟩
  /-- close the fragment that was opened last -/
  | closed {path p n rest log} :
      Step t ⟨path, p, .close n :: rest, log⟩ ⟨path.dropLast, p.finish n, rest, log⟩

/-- What can come next: a step, a good end where nothing is left to do, or a bad end. -/
theorem next_cases (t : FragmentTable) (s : Moment) :
    (∃ s', s.next t = .inl s' ∧ Step t s s') ∨
      (s.tasks = [] ∧ s.next t = .inr ⟨s.log, .ok s.progress⟩) ∨
      ∃ log e, s.next t = .inr ⟨log, .error e⟩ := by
  obtain ⟨path, p, tasks, log⟩ := s
  match tasks with
  | [] => exact .inr (.inl ⟨rfl, rfl⟩)
  | .close n :: rest => exact .inl ⟨_, rfl, .closed⟩
  | .walk [] :: rest => exact .inl ⟨_, rfl, .walked⟩
  | .walk (.field alias? name below :: after) :: rest => exact .inl ⟨_, rfl, .field⟩
  | .walk (.inlineFragment typeCondition? below :: after) :: rest =>
    exact .inl ⟨_, rfl, .inlineFragment⟩
  | .walk (.spread n :: after) :: rest =>
    by_cases hn : n ∈ path
    · exact .inr (.inr ⟨_, _, meet_of_mem_path hn⟩)
    by_cases he : n ∈ p.expanded
    · exact .inl ⟨_, meet_of_mem_expanded hn he, .skipped hn he⟩
    cases hf : t.get? n with
    | none => exact .inr (.inr ⟨_, _, meet_of_get?_eq_none hn he hf⟩)
    | some f => exact .inl ⟨_, meet_of_get?_eq_some hn he hf, .opened hn he hf⟩

theorem step_of_next (h : s.next t = .inl s') : Step t s s' := by
  rcases next_cases t s with ⟨s₁, hnext, hstep⟩ | ⟨-, hnext⟩ | ⟨log, e, hnext⟩
  · obtain rfl := Sum.inl.inj (h.symm.trans hnext)
    exact hstep
  · cases h.symm.trans hnext
  · cases h.symm.trans hnext

theorem next_of_step (h : Step t s s') : s.next t = .inl s' := by
  cases h with
  | walked => rfl
  | field => rfl
  | inlineFragment => rfl
  | skipped hn he => exact meet_of_mem_expanded hn he
  | opened hn he hf => exact meet_of_get?_eq_some hn he hf
  | closed => rfl

theorem advance_succ_eq_inl_iff {k : Nat} :
    s.advance t (k + 1) = .inl s' ↔ ∃ s₁, Step t s s₁ ∧ s₁.advance t k = .inl s' := by
  refine ⟨?_, ?_⟩
  · intro h
    rw [advance] at h
    cases hnext : s.next t with
    | inl s₁ =>
      rw [hnext] at h
      exact ⟨s₁, step_of_next hnext, h⟩
    | inr r =>
      rw [hnext] at h
      cases h
  · rintro ⟨s₁, hstep, h⟩
    rw [advance, next_of_step hstep]
    exact h

/-- **From steps to runs**: what every step keeps holds however far one goes. -/
theorem advance_of_step {P : Moment → Prop} (hstep : ∀ s s', P s → Step t s s' → P s') {k : Nat}
    (hs : P s) (h : s.advance t k = .inl s') : P s' := by
  induction k generalizing s with
  | zero =>
    obtain rfl := Sum.inl.inj h
    exact hs
  | succ k ih =>
    obtain ⟨s₁, hs₁, h⟩ := advance_succ_eq_inl_iff.1 h
    exact ih (hstep s s₁ hs hs₁) h

/-- What holds at every moment of a run: each fragment on the path is defined and is there once,
and the path shows which expansions are under way. -/
structure Orderly (t : FragmentTable) (s : Moment) : Prop where
  /-- no fragment is open twice -/
  nodup : s.path.Nodup
  /-- a fragment that is open is defined -/
  defined : ∀ n ∈ s.path, ∃ f, t.get? n = some f
  /-- a fragment is on the path as long as its expansion is under way -/
  expansions_eq : s.expansions = s.path.reverse

namespace Orderly

theorem start (t : FragmentTable) (selections : List Selection) :
    (start selections).Orderly t where
  nodup := List.nodup_nil
  defined _ hn := absurd hn List.not_mem_nil
  expansions_eq := rfl

/-- The fragment that is to be closed is the last one on the path. -/
theorem path_eq_of_close {path : List Name} {p : Progress} {n : Name} {rest : List Task}
    {log : List Event} (hs : Orderly t ⟨path, p, .close n :: rest, log⟩) :
    path = (rest.filterMap Task.closes?).reverse ++ [n] := by
  rw [← List.reverse_reverse path, ← hs.expansions_eq]
  exact List.reverse_cons

/-- **Step lemma**: a fragment is opened only off the path, and what is closed was opened last. -/
theorem step (hs : s.Orderly t) (h : Step t s s') : s'.Orderly t := by
  cases h with
  | walked => exact ⟨hs.nodup, hs.defined, hs.expansions_eq⟩
  | field => exact ⟨hs.nodup, hs.defined, hs.expansions_eq⟩
  | inlineFragment => exact ⟨hs.nodup, hs.defined, hs.expansions_eq⟩
  | skipped => exact ⟨hs.nodup, hs.defined, hs.expansions_eq⟩
  | @opened path p n f after rest log hn he hf =>
    refine ⟨?_, ?_, ?_⟩
    · exact List.concat_eq_append ▸ hs.nodup.concat hn
    · intro m hm
      rcases List.mem_append.1 hm with hm | hm
      · exact hs.defined m hm
      · obtain rfl := List.mem_singleton.1 hm
        exact ⟨f, hf⟩
    · rw [List.reverse_append]
      exact congrArg (List.cons n) hs.expansions_eq
  | @closed path p n rest log =>
    have hpath := hs.path_eq_of_close
    have hnodup := hs.nodup
    have hdefined := hs.defined
    subst hpath
    rw [List.dropLast_concat]
    refine ⟨(List.nodup_append'.1 hnodup).1, fun m hm => ?_, (List.reverse_reverse _).symm⟩
    exact hdefined m (List.mem_append_left _ hm)

/-- **Run lemma**: so it is at every moment. -/
theorem advance {k : Nat} (hs : s.Orderly t) (h : s.advance t k = .inl s') : s'.Orderly t :=
  advance_of_step (fun _ _ => step) hs h

end Orderly

end Moment

/-! ## Resolutions of a document -/

namespace Document

variable {d : Document}

/-- Different names of fragments are no more than there are names of fragments. -/
theorem length_le_fragmentNames {path : List Name} (hnodup : path.Nodup)
    (hdefined : ∀ n ∈ path, ∃ f ∈ d.fragments, f.name = n) :
    path.length ≤ d.fragmentNames.length := by
  refine (hnodup.subperm fun n hn => ?_).length_le
  rw [fragmentNames, List.mem_dedup, List.mem_map]
  exact hdefined n hn

/-- **Every resolution ends**, whatever the document.

* Taken step by step, a resolution comes to an end, and what it comes to is its result.
* At every moment the path holds different names, each defined in the document. It shows the
  expansions that are under way, so these are never nested deeper than there are names of
  fragments.
* The path that a cycle shows, with the name that closes it, is longer than that by one at
  most. -/
theorem resolve?_ends (d : Document) (selections : List Selection) :
    (∃ k run, (Moment.start selections).advance d.table k = .inr run ∧
      d.resolve? (some selections) = Progress.recorded <$> run) ∧
    (∀ k s, (Moment.start selections).advance d.table k = .inl s →
      s.path.Nodup ∧ (∀ n ∈ s.path, ∃ f ∈ d.fragments, f.name = n) ∧
        s.expansions = s.path.reverse ∧ s.expansions.length ≤ d.fragmentNames.length) ∧
    ∀ path n, (d.resolve? (some selections)).result = .error (.spreadCycle path n) →
      (path ++ [n]).length ≤ d.fragmentNames.length + 1 := by
  refine ⟨?_, ?_, ?_⟩
  · obtain ⟨k, run, hrun⟩ := Moment.halts_start d.table selections
    have hsame := Moment.run_advance d.table k (.start selections)
    rw [hrun, Moment.run_start] at hsame
    refine ⟨k, run, hrun, ?_⟩
    rw [resolve?_some, resolve, ← hsame]
    rfl
  · intro k s hs
    obtain ⟨hnodup, hdefined, hexpansions⟩ := (Moment.Orderly.start d.table selections).advance hs
    have hfragments : ∀ n ∈ s.path, ∃ f ∈ d.fragments, f.name = n := by
      intro n hn
      rw [get?_table] at hdefined
      exact exists_lastFragment?_iff.1 (hdefined n hn)
    refine ⟨hnodup, hfragments, hexpansions, ?_⟩
    rw [hexpansions, List.length_reverse]
    exact length_le_fragmentNames hnodup hfragments
  · intro path n h
    rw [resolve?_some] at h
    have hloops := loops_of_evidence (evidence_of_resolve_error h)
    have hlength := length_le_fragmentNames hloops.nodup hloops.defined
    rw [List.length_append, List.length_singleton]
    omega

/-- Fragments in a ring, the first of them after a definition that does not count. -/
def circular : Document := ⟨[
  .fragment ⟨"A", "Query", [.spread "Missing"]⟩,
  .fragment ⟨"B", "Query", [.spread "C"]⟩,
  .fragment ⟨"A", "Query", [.field none "x" [.spread "B"]]⟩,
  .fragment ⟨"C", "Query", [.field none "y" [], .spread "A"]⟩]⟩

/-- In a ring, no bound can be less. -/
theorem resolve?_ends_circular :
    (∃ k run, (Moment.start [.spread "A"]).advance circular.table k = .inr run ∧
      circular.resolve? (some [.spread "A"]) = Progress.recorded <$> run) ∧
    (∃ s, (Moment.start [.spread "A"]).advance circular.table 4 = .inl s ∧
      s.path = ["A", "B", "C"] ∧ s.expansions = ["C", "B", "A"] ∧
        s.expansions.length ≤ circular.fragmentNames.length) ∧
    circular.fragmentNames.length = 3 ∧
    (circular.resolve? (some [.spread "A"])).result = .error (.spreadCycle ["A", "B", "C"] "A") ∧
      (["A", "B", "C"] ++ ["A"]).length ≤ circular.fragmentNames.length + 1 := by
  obtain ⟨hend, hmoment, hcycle⟩ := resolve?_ends circular [.spread "A"]
  have hs : (Moment.start [.spread "A"]).advance circular.table 4 = .inl
      ⟨["A", "B", "C"], ((Progress.start.record "A").record "B").record "C",
        [.walk [.field none "y" [], .spread "A"], .close "C", .walk [], .close "B", .walk [],
          .walk [], .close "A", .walk []],
        [.expanding "A", .expanding "B", .expanding "C"]⟩ := by cbv
  have herror : (circular.resolve? (some [.spread "A"])).result =
      .error (.spreadCycle ["A", "B", "C"] "A") := by cbv
  obtain ⟨-, -, hexpansions, hdepth⟩ := hmoment 4 _ hs
  exact ⟨hend, ⟨_, hs, rfl, hexpansions, hdepth⟩, by decide, herror, hcycle _ _ herror⟩

end Document

end QueryFragments
