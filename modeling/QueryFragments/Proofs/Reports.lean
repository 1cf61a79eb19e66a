import QueryFragments.Proofs.Outcome
import QueryFragments.Proofs.Problems

/-!
# What a resolution reports

The events of a run, whatever its result. They are put together as the run is: an event of a
sequence is an event of one of its parts (`Run.mem_log_bind`), and what holds of the events of
every step holds of the events of a whole walk (`forall_mem_log_foldlM`).

* `Document.ne_bundled_of_mem_log_resolve`: a resolution never reports a bundle,
* `Event.text_ne_bundled`: nor does any of its lines read as if it did.
-/

namespace QueryFragments

universe u

/-! ## Events of sequences -/

section Events

variable {α β : Type u}

/-- An event of a sequence belongs to its first part, or to its second part if that is
reached. -/
theorem Run.mem_log_bind {m : Run α} {k : α → Run β} {event : Event}
    (h : event ∈ (m >>= k).log) :
    event ∈ m.log ∨ ∃ a, m.result = .ok a ∧ event ∈ (k a).log := by
  obtain ⟨log, r⟩ := m
  cases r with
  | error e => exact .inl h
  | ok a => exact (List.mem_append.1 h).imp_right fun h => ⟨a, rfl, h⟩

/-- What holds of the events of every step holds of the events of all of them. -/
theorem forall_mem_log_foldlM {Q : Event → Prop} {step : α → Name → Run α}
    (hstep : ∀ a n, ∀ event ∈ (step a n).log, Q event) (ns : List Name) (a : α) :
    ∀ event ∈ (ns.foldlM step a).log, Q event := by
  induction ns generalizing a with
  | nil => exact fun _ h => absurd h List.not_mem_nil
  | cons n ns ih =>
    intro event h
    rw [List.foldlM_cons] at h
    rcases Run.mem_log_bind h with h | ⟨b, -, h⟩
    · exact hstep a n event h
    · exact ih b event h

end Events

/-! ## No report of a bundle -/

/-- A text starts as its first piece does. -/
theorem head?_append_text {lead rest : String} {c : Char} (h : lead.toList.head? = some c) :
    (lead ++ rest).toList.head? = some c := by
  rw [String.toList_append, List.head?_append, h, Option.some_or]

/-- A line that reports a bundle reads like no other line: its first letter is its own. -/
theorem Event.text_ne_bundled {event : Event} (h : ∀ count, event ≠ .bundled count)
    (count : Nat) : event.text ≠ (bundled count).text := by
  intro htext
  have hb : (bundled count).text.toList.head? = some 'B' :=
    head?_append_text (head?_append_text (by decide))
  rw [← htext] at hb
  cases event with
  | expanding n =>
    have he : (expanding n).text.toList.head? = some 'E' :=
      head?_append_text (head?_append_text (by decide))
    simp [he] at hb
  | cycle path n =>
    have he : (cycle path n).text.toList.head? = some 'F' := head?_append_text (by decide)
    simp [he] at hb
  | undefined n =>
    have he : (undefined n).text.toList.head? = some 'F' :=
      head?_append_text (head?_append_text (by decide))
    simp [he] at hb
  | bundled k => exact h k rfl

/-- Dealing with a spread reports no bundle. -/
theorem ne_bundled_of_mem_log_visit (t : FragmentTable) (path : List Name) (p : Progress)
    (n : Name) : ∀ event ∈ (visit t path p n).log, ∀ count, event ≠ .bundled count := by
  induction path using t.open_induction generalizing p n with
  | opened path ih =>
    intro event h count
    by_cases hn : n ∈ path
    · rw [visit_of_mem_path hn] at h
      obtain rfl := List.mem_singleton.1 h
      exact Event.noConfusion
    by_cases he : n ∈ p.expanded
    · rw [visit_of_mem_expanded hn he] at h
      exact absurd h List.not_mem_nil
    cases hf : t.get? n with
    | none =>
      rw [visit_of_get?_eq_none hn he hf] at h
      obtain rfl := List.mem_singleton.1 h
      exact Event.noConfusion
    | some f =>
      rw [visit_of_get?_eq_some hn he hf, Run.emit_bind, (isWalk_collect t _).eq_foldlM] at h
      rcases List.mem_cons.1 h with rfl | h
      · exact Event.noConfusion
      rcases Run.mem_log_bind h with h | ⟨q, -, h⟩
      · exact forall_mem_log_foldlM (ih n f hn hf) _ _ event h count
      · exact absurd h List.not_mem_nil

/-- A resolution reports no bundle. -/
theorem Document.ne_bundled_of_mem_log_resolve (d : Document) (selections : List Selection) :
    ∀ event ∈ (d.resolve selections).log, ∀ count, event ≠ .bundled count := by
  intro event h count
  rw [resolve, (isWalk_collect d.table []).eq_foldlM] at h
  rcases Run.mem_log_bind h with h | ⟨p, -, h⟩
  · exact forall_mem_log_foldlM (ne_bundled_of_mem_log_visit d.table []) _ _ event h count
  · exact absurd h List.not_mem_nil

end QueryFragments
