import QueryFragments.Resolution.Plain

/-!
# Walks and their outcomes

Two facts that every resolution shares, whatever it remembers on its way.

* **A walk meets spreads only.** Walking a selection set is dealing with the names that it
  spreads, at any depth, one after the other in document order (`IsWalk.eq_foldlM`). Fields
  and fragments written in place leave no trace.
* **A run stops at the first problem.** `Outcome ps P r` says of a result `r` that it is the
  first of the problems `ps`, or a value with the property `P` if there are none. Outcomes
  are put together as the runs are: one after the other (`Outcome.bind`) and along a list
  (`Outcome.foldlM`).
-/

namespace QueryFragments

universe u

variable {α β : Type u}

/-! ## Walks -/

/-- `go` walks selection sets in document order and deals with spreads by `step`. -/
structure IsWalk (step : α → Name → Run α) (go : α → List Selection → Run α) : Prop where
  /-- nothing to do -/
  nil : ∀ a, go a [] = pure a
  /-- a field is walked through -/
  field : ∀ a alias? name below rest,
    go a (.field alias? name below :: rest) = go a below >>= fun a => go a rest
  /-- a fragment written in place is walked through -/
  inlineFragment : ∀ a typeCondition? below rest,
    go a (.inlineFragment typeCondition? below :: rest) = go a below >>= fun a => go a rest
  /-- a spread is dealt with before its later siblings -/
  spread : ∀ a n rest, go a (.spread n :: rest) = step a n >>= fun a => go a rest

namespace IsWalk

variable {step : α → Name → Run α} {go : α → List Selection → Run α}

mutual

/-- The first selection is dealt with by its spreads, then the walk goes on. -/
theorem cons_eq (hgo : IsWalk step go) (a : α) (rest : List Selection) :
    (s : Selection) → go a (s :: rest) = s.spreads.foldlM step a >>= fun a => go a rest
  | .field alias? name below => by
    rw [hgo.field, hgo.eq_foldlM a below, Selection.spreads_field]
  | .spread n => by
    rw [hgo.spread, Selection.spreads_spread, List.foldlM_cons]
    simp only [List.foldlM_nil, bind_pure]
  | .inlineFragment typeCondition? below => by
    rw [hgo.inlineFragment, hgo.eq_foldlM a below, Selection.spreads_inlineFragment]

/-- **Document order**: a walk deals with the spreads of a selection set from the first to
the last. -/
theorem eq_foldlM (hgo : IsWalk step go) (a : α) :
    (selections : List Selection) →
      go a selections = (Selection.spreadsIn selections).foldlM step a
  | [] => by rw [hgo.nil, Selection.spreadsIn_nil, List.foldlM_nil]
  | s :: rest => by
    rw [hgo.cons_eq a rest s, Selection.spreadsIn_cons, List.foldlM_append]
    congr 1
    funext b
    exact hgo.eq_foldlM b rest

end

end IsWalk

theorem isWalk_collect (t : FragmentTable) (path : List Name) :
    IsWalk (visit t path) (collect t path) where
  nil := collect_nil t path
  field := collect_field t path
  inlineFragment := collect_inlineFragment t path
  spread := collect_spread t path

theorem Plain.isWalk_collect (t : FragmentTable) (path : List Name) :
    IsWalk (Plain.visit t path) (Plain.collect t path) where
  nil met := by rw [Plain.collect]
  field met alias? name below rest := by rw [Plain.collect]
  inlineFragment met typeCondition? below rest := by rw [Plain.collect]
  spread met n rest := by rw [Plain.collect]

/-! ## Outcomes -/

/-- The result is the first of the problems `ps`, or a value with `P` if there are none. -/
inductive Outcome (ps : List Failure) (P : α → Prop) : Except Failure α → Prop where
  /-- there is a problem, and the first one is reported -/
  | stopped {e : Failure} (he : ps.head? = some e) : Outcome ps P (.error e)
  /-- there is none, and the value is as it should be -/
  | finished {a : α} (hps : ps = []) (ha : P a) : Outcome ps P (.ok a)

namespace Outcome

variable {ps qs : List Failure} {P : α → Prop} {Q : β → Prop} {r : Except Failure α}

theorem error_iff {e : Failure} (h : Outcome ps P r) : r = .error e ↔ ps.head? = some e := by
  cases h with
  | stopped he => rw [he, Except.error.injEq, Option.some.injEq]
  | finished hps _ => simp [hps]

theorem exists_ok_iff (h : Outcome ps P r) : (∃ a, r = .ok a) ↔ ps = [] := by
  cases h with
  | stopped he =>
    refine ⟨?_, ?_⟩
    · rintro ⟨a, ha⟩
      cases ha
    · rintro rfl
      cases he
  | @finished a hps _ => exact ⟨fun _ => hps, fun _ => ⟨a, rfl⟩⟩

theorem of_ok {a : α} (h : Outcome ps P (.ok a)) : P a := by
  cases h with
  | finished _ ha => exact ha

/-- Outcomes agree where the problems do and the value is determined by its property. -/
theorem eq_of_unique {r' : Except Failure α} (hP : ∀ a b, P a → P b → a = b)
    (h : Outcome ps P r) (h' : Outcome ps P r') : r = r' := by
  cases h with
  | stopped he => exact (h'.error_iff.2 he).symm
  | finished hps ha =>
    cases h' with
    | stopped he =>
      rw [hps] at he
      cases he
    | finished _ hb => rw [hP _ _ ha hb]

theorem imp {P' : α → Prop} (h : Outcome ps P r) (hP : ∀ a, P a → P' a) : Outcome ps P' r := by
  cases h with
  | stopped he => exact .stopped he
  | finished hps ha => exact .finished hps (hP _ ha)

theorem pure {a : α} (ha : P a) : Outcome [] P (pure a : Run α).result := .finished rfl ha

theorem abort (event : Event) (e : Failure) :
    Outcome [e] P (Run.abort event e : Run α).result := .stopped rfl

/-- **Sequence**: the problems of the second part come after those of the first. -/
theorem bind {m : Run α} {k : α → Run β} (hm : Outcome ps P m.result)
    (hk : ∀ a, P a → Outcome qs Q (k a).result) : Outcome (ps ++ qs) Q (m >>= k).result := by
  obtain ⟨log, r⟩ := m
  cases hm with
  | stopped he =>
    rw [Run.bind_error]
    exact .stopped (by rw [List.head?_append, he, Option.some_or])
  | @finished a hps ha =>
    rw [Run.bind_ok, hps, List.nil_append]
    exact hk a ha

/-- **List**: if every step passes on a property of the names dealt with so far, all of them
together do. -/
theorem foldlM {step : α → Name → Run α} {problems : Name → List Failure}
    {P : List Name → α → Prop}
    (hstep : ∀ done a n, P done a → Outcome (problems n) (P (done ++ [n])) (step a n).result)
    (ns done : List Name) (a : α) (ha : P done a) :
    Outcome (ns.flatMap problems) (P (done ++ ns)) (ns.foldlM step a).result := by
  induction ns generalizing done a with
  | nil =>
    rw [List.append_nil]
    exact .pure ha
  | cons n ns ih =>
    rw [List.foldlM_cons, List.flatMap_cons]
    refine (hstep done a n ha).bind fun b hb => ?_
    rw [List.append_cons]
    exact ih (done ++ [n]) b hb

end Outcome

end QueryFragments
