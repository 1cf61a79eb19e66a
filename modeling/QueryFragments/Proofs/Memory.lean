import QueryFragments.Proofs.Dependencies

/-!
# The memory of expanded fragments changes no result

The plain walk opens a fragment again wherever it is spread. A fragment that was expanded
under one path is then checked against another path, which the resolution that skips it never
does. That makes no difference:

* `Plain.visit_outcome`: the plain walk, too, ends with the first problem of a full expansion
  or adds the names that are reached,
* `Document.resolve?_eq_resolvePlainly`: the two resolutions give the same names, or fail with
  the same evidence: the first problem in depth-first document order.

Two runs need not be compared step by step for this, since one description determines the
result of both.
-/

namespace QueryFragments

namespace Plain

variable {t : FragmentTable} {path : List Name} {met : NameSet} {n : Name} {f : Fragment}

/-! ## Equation lemmas -/

theorem visit_of_mem_path (hn : n ∈ path) :
    visit t path met n = .abort (.cycle path n) (.spreadCycle path n) := by
  rw [visit, dif_pos hn]

theorem visit_of_get?_eq_none (hn : n ∉ path) (hf : t.get? n = none) :
    visit t path met n = .abort (.undefined n) (.undefinedFragment n) := by
  rw [visit, dif_neg hn]
  split
  · rfl
  · simp_all

theorem visit_of_get?_eq_some (hn : n ∉ path) (hf : t.get? n = some f) :
    visit t path met n = (do
      .emit (.expanding n)
      collect t (path ++ [n]) (met.insert n) f.selections) := by
  rw [visit, dif_neg hn]
  split
  · simp_all
  · simp_all

/-! ## One spread, and all of them -/

/-- Dealing with the names `ns` led from `met` to `met'`: what they reach was met. -/
def Advanced (t : FragmentTable) (met : NameSet) (ns : List Name) (met' : NameSet) : Prop :=
  ∀ m, m ∈ met' ↔ m ∈ met ∨ Reaches t.get? ns m

namespace Advanced

variable {met' met'' : NameSet} {ns ms : List Name}

theorem refl (met : NameSet) : Advanced t met [] met :=
  fun _ => ⟨.inl, fun h => h.resolve_right Reaches.not_nil⟩

theorem trans (h : Advanced t met ns met') (h' : Advanced t met' ms met'') :
    Advanced t met (ns ++ ms) met'' := by
  intro m
  rw [h' m, h m, Reaches.append_iff, or_assoc]

/-- To meet a name and then all that its fragment reaches is to meet all that the name
reaches. -/
theorem of_open (hf : t.get? n = some f) (h : Advanced t (met.insert n) f.spreads met') :
    Advanced t met [n] met' := by
  intro m
  rw [h m, NameSet.mem_insert, Reaches.singleton_iff hf, or_assoc]
  exact or_left_comm

end Advanced

theorem foldlM_visit_outcome
    (hvisit : ∀ met n, Outcome (t.problems path n) (Advanced t met [n]) (visit t path met n).result)
    (met : NameSet) (ns : List Name) :
    Outcome (ns.flatMap (t.problems path)) (Advanced t met ns)
      (ns.foldlM (visit t path) met).result := by
  refine Outcome.foldlM (P := fun done q => Advanced t met done q) ?_ ns [] met (.refl met)
  intro done q n hq
  exact (hvisit q n).imp fun _ hr => hq.trans hr

/-- A spread ends with the first problem below it, or all that its name reaches was met. -/
theorem visit_outcome (t : FragmentTable) (path : List Name) (met : NameSet) (n : Name) :
    Outcome (t.problems path n) (Advanced t met [n]) (visit t path met n).result := by
  induction path using t.open_induction generalizing met n with
  | opened path ih =>
    by_cases hn : n ∈ path
    · rw [visit_of_mem_path hn, FragmentTable.problems_of_mem_path hn]
      exact .abort _ _
    cases hf : t.get? n with
    | none =>
      rw [visit_of_get?_eq_none hn hf, FragmentTable.problems_of_get?_eq_none hn hf]
      exact .abort _ _
    | some f =>
      rw [visit_of_get?_eq_some hn hf, FragmentTable.problems_of_get?_eq_some hn hf,
        (isWalk_collect t (path ++ [n])).eq_foldlM]
      have hbelow := foldlM_visit_outcome (ih n f hn hf) (met.insert n) f.spreads
      rw [Run.emit_bind]
      exact hbelow.imp fun _ hq => hq.of_open hf

end Plain

namespace Document

theorem resolvePlainly_outcome (d : Document) (selections : List Selection) :
    Outcome (d.problems selections)
      (fun names => ∀ n, n ∈ names ↔ Reaches d.table.get? (Selection.spreadsIn selections) n)
      (d.resolvePlainly selections).result := by
  have hwalk := Plain.foldlM_visit_outcome (Plain.visit_outcome d.table []) ∅
    (Selection.spreadsIn selections)
  rw [← (Plain.isWalk_collect d.table []).eq_foldlM] at hwalk
  refine hwalk.imp fun names h n => ?_
  rw [h n]
  exact or_iff_right (NameSet.not_mem_empty n)

/-- **The memory changes no result.** With and without it the same names are found, or the
same failure is reported, with the same offending name and the same path. That failure is the
first problem that a full expansion meets in depth-first document order. -/
theorem resolve?_eq_resolvePlainly (d : Document) (selections : List Selection) :
    (d.resolve? (some selections)).result = (d.resolvePlainly selections).result ∧
      ∀ e, (d.resolve? (some selections)).result = .error e ↔
        (d.problems selections).head? = some e := by
  rw [resolve?_some]
  have hout := d.resolve_outcome selections
  refine ⟨hout.eq_of_unique ?_ (d.resolvePlainly_outcome selections), fun e => hout.error_iff⟩
  -- the names found are determined by what is reached
  intro names names' h h'
  exact NameSet.ext fun n => (h n).trans (h' n).symm

end Document

end QueryFragments
