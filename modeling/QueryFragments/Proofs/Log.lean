import Mathlib
import QueryFragments.Proofs.Dependencies

/-!
# The log tells the run

A resolution reports each fragment that it opens, when it opens it, and a failure when it fails.
What happened can be read off these lines:

* `OpenedInTurn`: an **order of opening**. A fragment can be opened once it is spread, at the
  start or by a fragment that was opened before.
* `Chronicle`: how the log of a run and its result belong together, given the fragments that were
  opened. The last line of a failed run is about the failure, and the path of a cycle was opened
  from the outside to the inside.
* `Opens`: the fragments that a run opens are opened in turn, each for the first time.
* `visit_opens`, `foldlM_visit_opens`: every spread, and every row of spreads, is a run of this
  kind, whatever path is open and whatever was expanded before.
* `Document.resolve?_log_exact`: so the log lists the fragments opened, each once, and then the
  failure if there is one. If there is none, the fragments opened are the names found.
-/

namespace QueryFragments

/-! ## Order of opening -/

/-- Fragments can be opened in the order of the second list: each is defined, and is spread at
the start or by one of the fragments before it. -/
inductive OpenedInTurn (look : Name → Option Fragment) : List Name → List Name → Prop where
  /-- nothing is opened -/
  | nil {start : List Name} : OpenedInTurn look start []
  /-- a fragment is opened, and what it spreads is at hand from then on -/
  | cons {start rest : List Name} {n : Name} {f : Fragment} (hn : n ∈ start)
      (hf : look n = some f) (hrest : OpenedInTurn look (start ++ f.spreads) rest) :
      OpenedInTurn look start (n :: rest)

namespace OpenedInTurn

variable {look : Name → Option Fragment} {start start' ms opened later : List Name} {n : Name}
  {f : Fragment}

theorem mono (hs : start ⊆ start') (h : OpenedInTurn look start opened) :
    OpenedInTurn look start' opened := by
  induction h generalizing start' with
  | nil => exact .nil
  | cons hn hf _ ih =>
    refine .cons (hs hn) hf (ih (List.append_subset.2 ⟨?_, List.subset_append_right ..⟩))
    exact List.subset_append_of_subset_left _ hs

/-- One row of spreads after the other. -/
theorem append (h : OpenedInTurn look start opened) (h' : OpenedInTurn look ms later) :
    OpenedInTurn look (start ++ ms) (opened ++ later) := by
  induction h with
  | nil => exact h'.mono (List.subset_append_right ..)
  | @cons start rest n f hn hf _ ih =>
    refine .cons (List.mem_append_left _ hn) hf (ih.mono ?_)
    -- what `n` spreads was put before the second row, and belongs after it
    intro m hm
    simp only [List.mem_append] at hm ⊢
    tauto

/-- A fragment, and then what it leads to. -/
theorem inside (hf : look n = some f) (h : OpenedInTurn look f.spreads opened) :
    OpenedInTurn look [n] (n :: opened) :=
  .cons List.mem_cons_self hf (h.mono (List.subset_append_right ..))

theorem defined (h : OpenedInTurn look start opened) (hn : n ∈ opened) : ∃ f, look n = some f := by
  induction h with
  | nil => exact absurd hn List.not_mem_nil
  | cons _ hf _ ih =>
    rcases List.mem_cons.1 hn with rfl | hn
    · exact ⟨_, hf⟩
    · exact ih hn

/-- Every fragment is led to from the start or from one before it. -/
theorem led {earlier : List Name} (h : OpenedInTurn look start opened)
    (hsplit : opened = earlier ++ n :: later) :
    n ∈ start ∨ ∃ m ∈ earlier, Spreads look m n := by
  induction h generalizing earlier with
  | nil => exact absurd hsplit (by simp)
  | @cons start rest k f hk hf _ ih =>
    cases earlier with
    | nil =>
      obtain ⟨rfl, -⟩ := List.cons.inj hsplit
      exact .inl hk
    | cons m earlier =>
      obtain ⟨rfl, hrest⟩ := List.cons.inj hsplit
      rcases ih hrest with hn | ⟨j, hj, hspreads⟩
      · rcases List.mem_append.1 hn with hn | hn
        · exact .inl hn
        · exact .inr ⟨k, List.mem_cons_self, f, hf, hn⟩
      · exact .inr ⟨j, List.mem_cons_of_mem _ hj, hspreads⟩

end OpenedInTurn

/-! ## Log and result -/

/-- What is left behind by a run that starts with the progress `p` below the path and opens the
fragments in the list `opened`, in this order. -/
inductive Chronicle (path : List Name) (p : Progress) (opened : List Name) :
    Run Progress → Prop where
  /-- all went well: what was opened is expanded now -/
  | finished {q : Progress} (hq : ∀ n, n ∈ q.expanded ↔ n ∈ p.expanded ∨ n ∈ opened) :
      Chronicle path p opened ⟨opened.map .expanding, .ok q⟩
  /-- a name was met that is not defined -/
  | undefined (n : Name) :
      Chronicle path p opened ⟨opened.map .expanding ++ [.undefined n],
        .error (.undefinedFragment n)⟩
  /-- a cycle was met; what was open by then had been opened in that order -/
  | cycle {tail : List Name} (n : Name) (htail : tail.Sublist opened) :
      Chronicle path p opened ⟨opened.map .expanding ++ [.cycle (path ++ tail) n],
        .error (.spreadCycle (path ++ tail) n)⟩

namespace Chronicle

variable {path opened later : List Name} {p q : Progress} {n : Name} {r : Run Progress}

/-- A run that goes on where another one ended well. -/
theorem after (hq : ∀ n, n ∈ q.expanded ↔ n ∈ p.expanded ∨ n ∈ opened)
    (h : Chronicle path q later r) :
    Chronicle path p (opened ++ later) ⟨opened.map .expanding ++ r.log, r.result⟩ := by
  cases h with
  | finished hq' =>
    rw [← List.map_append]
    exact .finished fun n => by rw [hq', hq, List.mem_append, or_assoc]
  | undefined n =>
    rw [← List.append_assoc, ← List.map_append]
    exact .undefined n
  | cycle n htail =>
    rw [← List.append_assoc, ← List.map_append]
    exact .cycle n (htail.trans (List.sublist_append_right ..))

/-- A run inside a fragment, from its opening to its end. -/
theorem inside (h : Chronicle (path ++ [n]) (p.record n) opened r) :
    Chronicle path p (n :: opened) (do
      .emit (.expanding n)
      let q ← r
      pure (q.finish n)) := by
  cases h with
  | @finished q hq =>
    rw [Run.emit_bind, Run.bind_ok]
    simp only [Run.pure_eq, List.append_nil]
    rw [← List.map_cons]
    refine .finished fun m => ?_
    rw [Progress.mem_finish, hq, List.mem_cons]
    exact or_left_comm
  | undefined m => exact .undefined m
  | @cycle tail m htail =>
    rw [List.append_assoc]
    exact .cycle m (htail.cons_cons n)

end Chronicle

/-! ## What a run opens -/

/-- The run `r` deals with the names `ns` below the path, starts with the progress `p` and opens
the fragments in the list `opened`. -/
structure Opens (t : FragmentTable) (path : List Name) (p : Progress) (ns opened : List Name)
    (r : Run Progress) : Prop where
  /-- each is opened when it is its turn -/
  inTurn : OpenedInTurn t.get? ns opened
  /-- and is opened once -/
  nodup : opened.Nodup
  /-- none of them was open or expanded before -/
  fresh : ∀ n ∈ opened, n ∉ path ∧ n ∉ p.expanded
  /-- the log lists them, and the result goes with it -/
  chronicle : Chronicle path p opened r

namespace Opens

variable {t : FragmentTable} {path ns ms opened : List Name} {p : Progress} {n : Name}
  {f : Fragment} {r : Run Progress}

/-- A run that opens nothing. -/
theorem of_chronicle (h : Chronicle path p [] r) : Opens t path p ns [] r where
  inTurn := .nil
  nodup := List.nodup_nil
  fresh _ hn := absurd hn List.not_mem_nil
  chronicle := h

/-- **Sequence**: the second part opens nothing that the first one did, for that is expanded. -/
theorem bind {k : Progress → Run Progress} (hr : Opens t path p ns opened r)
    (hk : ∀ q, ∃ later, Opens t path q ms later (k q)) :
    ∃ opened, Opens t path p (ns ++ ms) opened (r >>= k) := by
  obtain ⟨hturn, hnodup, hfresh, hchronicle⟩ := hr
  have hturn' : OpenedInTurn t.get? (ns ++ ms) opened :=
    hturn.mono (List.subset_append_left ..)
  cases hchronicle with
  | undefined n => exact ⟨opened, hturn', hnodup, hfresh, .undefined n⟩
  | cycle n htail => exact ⟨opened, hturn', hnodup, hfresh, .cycle n htail⟩
  | @finished q hq =>
    obtain ⟨later, hlater⟩ := hk q
    refine ⟨opened ++ later, hturn.append hlater.inTurn, ?_, ?_, ?_⟩
    · refine List.nodup_append'.2 ⟨hnodup, hlater.nodup, fun n hn hn' => ?_⟩
      exact (hlater.fresh n hn').2 ((hq n).2 (.inr hn))
    · intro n hn
      rcases List.mem_append.1 hn with hn | hn
      · exact hfresh n hn
      · obtain ⟨hpath, hexpanded⟩ := hlater.fresh n hn
        exact ⟨hpath, fun hp => hexpanded ((hq n).2 (.inl hp))⟩
    · rw [Run.bind_ok]
      exact hlater.chronicle.after hq

/-- **Expansion**: what is opened inside a fragment is not the fragment itself, for that is on
the path. -/
theorem inside (hn : n ∉ path) (he : n ∉ p.expanded) (hf : t.get? n = some f)
    (h : Opens t (path ++ [n]) (p.record n) f.spreads opened r) :
    Opens t path p [n] (n :: opened) (do
      .emit (.expanding n)
      let q ← r
      pure (q.finish n)) where
  inTurn := h.inTurn.inside hf
  nodup := by
    refine List.nodup_cons.2 ⟨fun hmem => ?_, h.nodup⟩
    exact (h.fresh n hmem).1 (List.mem_append_right _ List.mem_cons_self)
  fresh m hm := by
    rcases List.mem_cons.1 hm with rfl | hm
    · exact ⟨hn, he⟩
    · obtain ⟨hpath, hexpanded⟩ := h.fresh m hm
      exact ⟨fun hp => hpath (List.mem_append_left _ hp), hexpanded⟩
  chronicle := h.chronicle.inside

end Opens

section Runs

variable {t : FragmentTable} {path : List Name}

/-- **Run lemma**: if single spreads below a path open fragments in turn, so do many in a row. -/
theorem foldlM_visit_opens
    (hvisit : ∀ p n, ∃ opened, Opens t path p [n] opened (visit t path p n)) (ns : List Name)
    (p : Progress) : ∃ opened, Opens t path p ns opened (ns.foldlM (visit t path) p) := by
  induction ns generalizing p with
  | nil => exact ⟨[], .of_chronicle (.finished fun n => by simp)⟩
  | cons n ns ih =>
    obtain ⟨opened, hopened⟩ := hvisit p n
    rw [List.foldlM_cons]
    exact hopened.bind ih

/-- **Step lemma**: a spread opens fragments in turn, the fragment of its own name first. -/
theorem visit_opens (t : FragmentTable) (path : List Name) (p : Progress) (n : Name) :
    ∃ opened, Opens t path p [n] opened (visit t path p n) := by
  induction path using t.open_induction generalizing p n with
  | opened path ih =>
    by_cases hn : n ∈ path
    · have h : Chronicle path p [] (.abort (.cycle (path ++ []) n) (.spreadCycle (path ++ []) n)) :=
        .cycle n (List.nil_sublist [])
      rw [List.append_nil] at h
      rw [visit_of_mem_path hn]
      exact ⟨[], .of_chronicle h⟩
    by_cases he : n ∈ p.expanded
    · rw [visit_of_mem_expanded hn he]
      exact ⟨[], .of_chronicle (.finished fun m => by simp [Progress.record])⟩
    cases hf : t.get? n with
    | none =>
      rw [visit_of_get?_eq_none hn he hf]
      exact ⟨[], .of_chronicle (.undefined n)⟩
    | some f =>
      rw [visit_of_get?_eq_some hn he hf, (isWalk_collect t (path ++ [n])).eq_foldlM]
      obtain ⟨opened, hopened⟩ := foldlM_visit_opens (ih n f hn hf) f.spreads (p.record n)
      exact ⟨n :: opened, hopened.inside hn he hf⟩

end Runs

/-! ## The whole log -/

namespace Document

variable {d : Document} {selections : List Selection} {log : List Event}

theorem resolve?_of_collect_ok {p : Progress}
    (h : collect d.table [] .start selections = ⟨log, .ok p⟩) :
    d.resolve? (some selections) = ⟨log, .ok p.recorded⟩ := by
  rw [resolve?_some, resolve, h]
  exact Run.ext (List.append_nil log) rfl

theorem resolve?_of_collect_error {e : Failure}
    (h : collect d.table [] .start selections = ⟨log, .error e⟩) :
    d.resolve? (some selections) = ⟨log, .error e⟩ := by
  rw [resolve?_some, resolve, h]
  rfl

/-- At the end nothing is open, so the names met are those of expanded fragments. -/
theorem recorded_iff_expanded {p : Progress}
    (h : (collect d.table [] .start selections).result = .ok p) (n : Name) :
    n ∈ p.recorded ↔ n ∈ p.expanded := by
  have hout := foldlM_visit_outcome (fun p n hp => visit_outcome hp n)
    (Progress.Consistent.start d.table) (Selection.spreadsIn selections)
  rw [← (isWalk_collect d.table []).eq_foldlM, h] at hout
  rw [hout.of_ok.consistent.recorded_iff]
  exact or_iff_left List.not_mem_nil

/-- **The log is exact.** It lists the fragments opened, in order: each once, each defined, and each
spread in the selection set or in the last definition of one that was opened before. If the
resolution ends well, nothing else is reported, and the fragments opened are the names found. If it
fails, one more line follows, which tells the failure; and where that is a cycle, the names on its
path were opened in that order. -/
theorem resolve?_log_exact (d : Document) (selections : List Selection) :
    ∃ opened : List Name, opened.Nodup ∧ (∀ n ∈ opened, ∃ f ∈ d.fragments, f.name = n) ∧
      (∀ earlier n later, opened = earlier ++ n :: later →
        n ∈ Selection.spreadsIn selections ∨ ∃ m ∈ earlier, Spreads d.lastFragment? m n) ∧
      (∀ names, (d.resolve? (some selections)).result = .ok names →
        (d.resolve? (some selections)).lines =
            opened.map (fun n => (.trace, "Expanding fragment \"" ++ n ++ "\"")) ∧
          opened.Perm names.toList) ∧
      ∀ e, (d.resolve? (some selections)).result = .error e →
        ∃ text, (d.resolve? (some selections)).lines =
            opened.map (fun n => (.trace, "Expanding fragment \"" ++ n ++ "\"")) ++
              [(.debug, text)] ∧
          ((∃ path n context, e = .spreadCycle path n ∧ e.diagnostic.context? = some context ∧
              text = "Fragment spread cycle: " ++ context ∧ path.Sublist opened) ∨
            ∃ n, e = .undefinedFragment n ∧
              e.diagnostic.message = "Unknown fragment \"" ++ n ++ "\"" ∧
              text = "Fragment spread \"" ++ n ++ "\" has no definition") := by
  obtain ⟨opened, ⟨hturn, hnodup, -, hchronicle⟩⟩ :=
    foldlM_visit_opens (visit_opens d.table []) (Selection.spreadsIn selections) .start
  rw [← (isWalk_collect d.table []).eq_foldlM] at hchronicle
  rw [get?_table] at hturn
  refine ⟨opened, hnodup, fun n hn => exists_lastFragment?_iff.1 (hturn.defined hn),
    fun earlier n later hsplit => hturn.led hsplit, ?_⟩
  generalize hrun : collect d.table [] .start selections = run at hchronicle
  cases hchronicle with
  | @finished p hp =>
    rw [resolve?_of_collect_ok hrun]
    refine ⟨fun names hnames => ?_, nofun⟩
    obtain rfl : p.recorded = names := Except.ok.inj hnames
    refine ⟨List.map_map .., (List.perm_ext_iff_of_nodup hnodup p.recorded.nodup_toList).2 ?_⟩
    intro n
    have hfinal : (collect d.table [] .start selections).result = .ok p := by rw [hrun]
    rw [NameSet.mem_toList, recorded_iff_expanded hfinal, hp]
    exact (or_iff_right (NameSet.not_mem_empty n)).symm
  | undefined n =>
    rw [resolve?_of_collect_error hrun]
    refine ⟨nofun, fun e he => ?_⟩
    obtain rfl : .undefinedFragment n = e := Except.error.inj he
    refine ⟨(Event.undefined n).text, ?_, .inr ⟨n, rfl, rfl, rfl⟩⟩
    rw [Run.lines, List.map_append, List.map_map]
    rfl
  | @cycle path n hpath =>
    rw [resolve?_of_collect_error hrun]
    refine ⟨nofun, fun e he => ?_⟩
    obtain rfl : .spreadCycle path n = e := Except.error.inj he
    refine ⟨(Event.cycle path n).text, ?_, .inl ⟨path, n, trail path n, rfl, rfl, rfl, hpath⟩⟩
    rw [Run.lines, List.map_append, List.map_map]
    rfl

/-- `Shared` can be reached from `A` in two ways, and `L` leads back to itself through `M`. -/
def diamondAndLoop : Document := ⟨[
  .fragment ⟨"A", "T", [.field none "a" [.spread "B"], .spread "Shared"]⟩,
  .fragment ⟨"B", "T", [.spread "Shared"]⟩,
  .fragment ⟨"Shared", "T", [.field none "id" []]⟩,
  .fragment ⟨"L", "T", [.spread "M"]⟩,
  .fragment ⟨"M", "T", [.spread "Shared", .inlineFragment none [.spread "L"]]⟩]⟩

/-- What is opened can be read off the lines. In the second run `M` was opened because of one that
was opened before it, and the cycle shows the last two. -/
theorem resolve?_log_exact_diamondAndLoop :
    (∃ names : NameSet,
      (diamondAndLoop.resolve? (some [.spread "A", .spread "B"])).result = .ok names ∧
      (diamondAndLoop.resolve? (some [.spread "A", .spread "B"])).lines =
        ["A", "B", "Shared"].map (fun n => (.trace, "Expanding fragment \"" ++ n ++ "\"")) ∧
      ["A", "B", "Shared"].Perm names.toList) ∧
    (diamondAndLoop.resolve? (some [.spread "A", .spread "L"])).result =
      .error (.spreadCycle ["L", "M"] "L") ∧
    (diamondAndLoop.resolve? (some [.spread "A", .spread "L"])).lines =
      ["A", "B", "Shared", "L", "M"].map (fun n => (.trace, "Expanding fragment \"" ++ n ++ "\"")) ++
        [(.debug, "Fragment spread cycle: L -> M -> L")] ∧
    ("M" ∈ Selection.spreadsIn [.spread "A", .spread "L"] ∨
      ∃ m ∈ ["A", "B", "Shared", "L"], Spreads diamondAndLoop.lastFragment? m "M") ∧
    ["L", "M"].Sublist ["A", "B", "Shared", "L", "M"] := by
  have hline : Function.Injective fun n : Name =>
      (Level.trace, "Expanding fragment \"" ++ n ++ "\"") := by
    intro n m h
    simpa using h
  refine ⟨?_, ?_⟩
  · have h : (diamondAndLoop.resolve? (some [.spread "A", .spread "B"])).result =
        .ok ((∅ : NameSet).insertAll ["A", "B", "Shared"]) := by cbv
    have hlog : (diamondAndLoop.resolve? (some [.spread "A", .spread "B"])).log =
        [.expanding "A", .expanding "B", .expanding "Shared"] := by cbv
    have hlines : (diamondAndLoop.resolve? (some [.spread "A", .spread "B"])).lines =
        ["A", "B", "Shared"].map (fun n => (.trace, "Expanding fragment \"" ++ n ++ "\"")) := by
      rw [Run.lines, hlog]
      rfl
    obtain ⟨opened, -, -, -, hok, -⟩ :=
      resolve?_log_exact diamondAndLoop [.spread "A", .spread "B"]
    obtain ⟨hopened, hperm⟩ := hok _ h
    obtain rfl : ["A", "B", "Shared"] = opened :=
      List.map_injective_iff.2 hline (hlines.symm.trans hopened)
    exact ⟨_, h, hlines, hperm⟩
  · have h : (diamondAndLoop.resolve? (some [.spread "A", .spread "L"])).result =
        .error (.spreadCycle ["L", "M"] "L") := by cbv
    have hlog : (diamondAndLoop.resolve? (some [.spread "A", .spread "L"])).log =
        [.expanding "A", .expanding "B", .expanding "Shared", .expanding "L", .expanding "M",
          .cycle ["L", "M"] "L"] := by cbv
    have hlines : (diamondAndLoop.resolve? (some [.spread "A", .spread "L"])).lines =
        ["A", "B", "Shared", "L", "M"].map
            (fun n => (.trace, "Expanding fragment \"" ++ n ++ "\"")) ++
          [(.debug, "Fragment spread cycle: L -> M -> L")] := by
      rw [Run.lines, hlog]
      rfl
    obtain ⟨opened, -, -, hled, -, herror⟩ :=
      resolve?_log_exact diamondAndLoop [.spread "A", .spread "L"]
    obtain ⟨text, hopened, hfailure⟩ := herror _ h
    obtain ⟨hmap, -⟩ := List.append_inj' (hlines.symm.trans hopened) rfl
    obtain rfl : ["A", "B", "Shared", "L", "M"] = opened := List.map_injective_iff.2 hline hmap
    refine ⟨h, hlines, hled ["A", "B", "Shared", "L"] "M" [] rfl, ?_⟩
    rcases hfailure with ⟨path, n, context, he, -, -, hpath⟩ | ⟨n, he, -⟩
    · obtain ⟨rfl, rfl⟩ := Failure.spreadCycle.inj he
      exact hpath
    · cases he

end Document

end QueryFragments
