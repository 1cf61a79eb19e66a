import Mathlib.Data.List.Forall2
import QueryFragments.Document.Json

/-!
# The JSON form determines the document

What is written is read back: `Document.ofJson?` undoes `Document.toJson`, on documents of any
shape with any names.

A JSON object has its members in no order, though here it lists them in one. So reading back is
proved not only of the value that was written but of every value that is the *same*
(`Json.Same`): equal but for the order of members, at any depth. Readers look members up by key
(`Json.member`, `Selection.belowOfMembers?_eq`, `Selection.setOfMembers?_eq`), and the keys of a
written object are distinct, so each look-up finds what was written under its key
(`Json.Same.member`).
-/

namespace QueryFragments

/-! ## The same value -/

namespace Json

/-- Equal but for the order in which objects list their members. -/
inductive Same : Json → Json → Prop where
  /-- the absent value -/
  | null : Same .null .null
  /-- one truth value -/
  | bool (value : Bool) : Same (.bool value) (.bool value)
  /-- one number -/
  | number (value : Nat) : Same (.number value) (.number value)
  /-- one text -/
  | string (value : String) : Same (.string value) (.string value)
  /-- arrays whose items are the same one by one -/
  | array {items items' : List Json} (hitems : List.Forall₂ Same items items') :
      Same (.array items) (.array items')
  /-- objects whose members, once they are arranged alike, have the same keys and values -/
  | object {members arranged members' : List (String × Json)} (hperm : members.Perm arranged)
      (hkeys : arranged.map Prod.fst = members'.map Prod.fst)
      (hvalues : List.Forall₂ Same (arranged.map Prod.snd) (members'.map Prod.snd)) :
      Same (.object members) (.object members')

mutual

/-- Every value is the same as itself. -/
theorem Same.refl : (j : Json) → Same j j
  | .null => .null
  | .bool value => .bool value
  | .number value => .number value
  | .string value => .string value
  | .array items => .array (Same.refl_items items)
  | .object members => .object (.refl members) rfl (Same.refl_values members)

theorem Same.refl_items : (items : List Json) → List.Forall₂ Same items items
  | [] => .nil
  | j :: js => .cons (Same.refl j) (Same.refl_items js)

theorem Same.refl_values :
    (members : List (String × Json)) →
      List.Forall₂ Same (members.map Prod.snd) (members.map Prod.snd)
  | [] => .nil
  | (_, j) :: ms => .cons (Same.refl j) (Same.refl_values ms)

end

/-- Under a key that no other member has, a look-up finds the member. -/
theorem member_of_mem {ms : List (String × Json)} {m : String × Json}
    (hnodup : (ms.map Prod.fst).Nodup) (hm : m ∈ ms) : member ms m.1 = m.2 := by
  induction ms with
  | nil => cases hm
  | cons first ms ih =>
    obtain ⟨hfresh, hnodup⟩ := List.nodup_cons.1 hnodup
    rcases List.mem_cons.1 hm with rfl | hm
    · rw [member, if_pos rfl]
    · have hne : first.1 ≠ m.1 := by
        intro heq
        exact hfresh (List.mem_map.2 ⟨m, hm, heq.symm⟩)
      rw [member, if_neg hne]
      exact ih hnodup hm

/-- Of two lists of members that are arranged alike, what stands in one has a counterpart in the
other. -/
theorem exists_mem_of_forall₂ {R : Json → Json → Prop} {ms ms' : List (String × Json)}
    {m' : String × Json} (hkeys : ms.map Prod.fst = ms'.map Prod.fst)
    (hvalues : List.Forall₂ R (ms.map Prod.snd) (ms'.map Prod.snd)) (hm' : m' ∈ ms') :
    ∃ m ∈ ms, m.1 = m'.1 ∧ R m.2 m'.2 := by
  induction ms' generalizing ms with
  | nil => cases hm'
  | cons first' ms' ih =>
    cases ms with
    | nil => cases hkeys
    | cons first ms =>
      obtain ⟨hkey, hkeys⟩ := List.cons.inj hkeys
      obtain ⟨hvalue, hvalues⟩ := List.forall₂_cons.1 hvalues
      rcases List.mem_cons.1 hm' with rfl | hm'
      · exact ⟨first, List.mem_cons_self, hkey, hvalue⟩
      · obtain ⟨m, hm, h⟩ := ih hkeys hvalues hm'
        exact ⟨m, List.mem_cons_of_mem _ hm, h⟩

namespace Same

variable {j : Json}

theorem eq_string {s : String} (h : Same j (.string s)) : j = .string s := by
  cases h
  rfl

theorem eq_array {items : List Json} (h : Same j (.array items)) :
    ∃ js, j = .array js ∧ List.Forall₂ Same js items := by
  cases h with
  | array hitems => exact ⟨_, rfl, hitems⟩

/-- **Look-up in an object**: a value that is the same as an object with distinct keys is an
object too, and under each key of the one stands the same in the other. -/
theorem eq_object {ms' : List (String × Json)} (h : Same j (.object ms'))
    (hnodup : (ms'.map Prod.fst).Nodup) :
    ∃ ms, j = .object ms ∧ ∀ m ∈ ms', Same (member ms m.1) m.2 := by
  cases h with
  | @object ms arranged _ hperm hkeys hvalues =>
    refine ⟨ms, rfl, fun m' hm' => ?_⟩
    obtain ⟨m, hm, hkey, hsame⟩ := exists_mem_of_forall₂ hkeys hvalues hm'
    -- a rearrangement of distinct keys has distinct keys
    have hms : (ms.map Prod.fst).Nodup := by
      rw [(hperm.map Prod.fst).nodup_iff, hkeys]
      exact hnodup
    rw [← hkey, member_of_mem hms (hperm.mem_iff.2 hm)]
    exact hsame

theorem nullableString?_eq {o : Option String} (h : Same j (.ofOption o)) :
    j.nullableString? = some o := by
  cases o with
  | none =>
    cases h
    rfl
  | some s =>
    cases h
    rfl

end Same

end Json

/-! ## Readers look members up -/

theorem kindIn?_of_member {ms : List (String × Json)} {kind : Kind}
    (h : (Json.member ms "kind").Same (.string kind.tag)) : kindIn? ms = some kind := by
  rw [kindIn?, h.eq_string]
  exact Kind.ofTag?_tag kind

namespace Selection

theorem belowOfMembers?_eq (ms : List (String × Json)) :
    belowOfMembers? ms = setOfJson? (Json.member ms "selection_set") := by
  induction ms with
  | nil => rw [belowOfMembers?, Json.member, setOfJson?]
  | cons m ms ih =>
    obtain ⟨key, j⟩ := m
    rw [belowOfMembers?, Json.member, ih]
    split <;> rfl

theorem setOfMembers?_of_member {ms : List (String × Json)} {js : List Json}
    (h : Json.member ms "selections" = .array js) : setOfMembers? ms = listOfJson? js := by
  induction ms with
  | nil => cases h
  | cons m ms ih =>
    obtain ⟨key, j⟩ := m
    rw [Json.member] at h
    by_cases hkey : key = "selections"
    · rw [if_pos hkey] at h
      rw [h, setOfMembers?, if_pos hkey]
    · rw [if_neg hkey] at h
      cases j <;> rw [setOfMembers?, if_neg hkey, ih h] <;> nofun

end Selection

/-! ## Reading back -/

section Names

variable {j : Json}

theorem Name.ofJson?_of_same {n : Name} (h : j.Same n.toJson) : Name.ofJson? j = some n := by
  obtain ⟨ms, rfl, hms⟩ := h.eq_object (by simp)
  have hname := hms ("name", .string n) (by simp)
  simp [Name.ofJson?, Json.members?, hname.eq_string, Json.string?]

theorem Name.optionOfJson?_of_same {n? : Option Name} (h : j.Same (Name.optionToJson n?)) :
    Name.optionOfJson? j = some n? := by
  cases n? with
  | none =>
    cases h
    rfl
  | some n =>
    have hn := Name.ofJson?_of_same h
    obtain ⟨ms, rfl, -⟩ := h.eq_object (by simp)
    rw [Name.optionOfJson?, hn, Option.map_some]
    nofun

end Names

namespace Selection

/-- A selection set is read back if its selections are. -/
theorem setOfJson?_of_same {ss : List Selection} {j : Json}
    (hlist : ∀ js, List.Forall₂ Json.Same js (listToJson ss) → listOfJson? js = some ss)
    (h : j.Same (setToJson ss)) : setOfJson? j = some ss := by
  obtain ⟨ms, rfl, hms⟩ := h.eq_object (by simp)
  obtain ⟨js, hjs, hsame⟩ := (hms ("selections", .array (listToJson ss)) (by simp)).eq_array
  rw [setOfJson?, setOfMembers?_of_member hjs, hlist js hsame]

mutual

/-- A selection is read back. -/
theorem ofJson?_of_same : (s : Selection) → {j : Json} → j.Same s.toJson → ofJson? j = some s
  | .field alias? name below, j, h => by
    rw [toJson] at h
    obtain ⟨ms, rfl, hms⟩ := h.eq_object (by simp)
    simp only [List.forall_mem_cons] at hms
    obtain ⟨hkind, halias, hname, hset, -⟩ := hms
    have hbelow := setOfJson?_of_same (fun _ => listOfJson?_of_same below) hset
    simp [ofJson?, kindIn?_of_member hkind, halias.nullableString?_eq, hname.eq_string,
      Json.string?, belowOfMembers?_eq, hbelow]
  | .spread name, j, h => by
    rw [toJson] at h
    obtain ⟨ms, rfl, hms⟩ := h.eq_object (by simp)
    simp only [List.forall_mem_cons] at hms
    obtain ⟨hkind, hname, -⟩ := hms
    simp [ofJson?, kindIn?_of_member hkind, Name.ofJson?_of_same hname]
  | .inlineFragment typeCondition? below, j, h => by
    rw [toJson] at h
    obtain ⟨ms, rfl, hms⟩ := h.eq_object (by simp)
    simp only [List.forall_mem_cons] at hms
    obtain ⟨hkind, htype, hset, -⟩ := hms
    have hbelow := setOfJson?_of_same (fun _ => listOfJson?_of_same below) hset
    simp [ofJson?, kindIn?_of_member hkind, Name.optionOfJson?_of_same htype,
      belowOfMembers?_eq, hbelow]

/-- Selections are read back one by one. -/
theorem listOfJson?_of_same :
    (ss : List Selection) → {js : List Json} → List.Forall₂ Json.Same js (listToJson ss) →
      listOfJson? js = some ss
  | [], js, h => by
    rw [listToJson, List.forall₂_nil_right_iff] at h
    rw [h, listOfJson?]
  | s :: ss, js, h => by
    rw [listToJson, List.forall₂_cons_right_iff] at h
    obtain ⟨j, rest, hj, hrest, rfl⟩ := h
    simp [listOfJson?, ofJson?_of_same s hj, listOfJson?_of_same ss hrest]

end

end Selection

section Definitions

variable {ms : List (String × Json)}

theorem Operation.ofMembers?_of_same {o : Operation}
    (hms : ∀ m ∈ o.members, (Json.member ms m.1).Same m.2) : Operation.ofMembers? ms = some o := by
  simp only [Operation.members, List.forall_mem_cons] at hms
  obtain ⟨hkind, hname, hset, -⟩ := hms
  have hbelow := Selection.setOfJson?_of_same
    (fun _ => Selection.listOfJson?_of_same o.selections) hset
  simp [Operation.ofMembers?, hkind.eq_string, Json.string?, Name.optionOfJson?_of_same hname,
    Selection.belowOfMembers?_eq, hbelow]

theorem Fragment.ofMembers?_of_same {f : Fragment}
    (hms : ∀ m ∈ f.members, (Json.member ms m.1).Same m.2) : Fragment.ofMembers? ms = some f := by
  simp only [Fragment.members, List.forall_mem_cons] at hms
  obtain ⟨hname, htype, hset, -⟩ := hms
  have hbelow := Selection.setOfJson?_of_same
    (fun _ => Selection.listOfJson?_of_same f.selections) hset
  simp [Fragment.ofMembers?, Name.ofJson?_of_same hname, Name.ofJson?_of_same htype,
    Selection.belowOfMembers?_eq, hbelow]

/-- A definition is read back: its kind of node tells which sort it is. -/
theorem Definition.ofJson?_of_same {d : Definition} {j : Json} (h : j.Same d.toJson) :
    Definition.ofJson? j = some d := by
  cases d with
  | operation o =>
    obtain ⟨ms, rfl, hms⟩ := h.eq_object (by simp [Operation.members])
    obtain ⟨hkind, hms⟩ := List.forall_mem_cons.1 hms
    simp [Definition.ofJson?, Json.members?, kindIn?_of_member hkind,
      Operation.ofMembers?_of_same hms]
  | fragment f =>
    obtain ⟨ms, rfl, hms⟩ := h.eq_object (by simp [Fragment.members])
    obtain ⟨hkind, hms⟩ := List.forall_mem_cons.1 hms
    simp [Definition.ofJson?, Json.members?, kindIn?_of_member hkind,
      Fragment.ofMembers?_of_same hms]

theorem Definition.mapM_ofJson?_of_same {ds : List Definition} {js : List Json}
    (h : List.Forall₂ Json.Same js (ds.map Definition.toJson)) :
    js.mapM Definition.ofJson? = some ds := by
  induction ds generalizing js with
  | nil =>
    rw [List.map_nil, List.forall₂_nil_right_iff] at h
    rw [h, List.mapM_nil]
    rfl
  | cons d ds ih =>
    rw [List.map_cons, List.forall₂_cons_right_iff] at h
    obtain ⟨j, rest, hj, hrest, rfl⟩ := h
    simp [Definition.ofJson?_of_same hj, ih hrest]

end Definitions

namespace Document

/-- **Reading back**: from the JSON form of a document, with the members of its objects in any
order, the document is read. -/
theorem ofJson?_of_same {d : Document} {j : Json} (h : j.Same d.toJson) :
    ofJson? j = some d := by
  obtain ⟨ms, rfl, hms⟩ := h.eq_object (by simp)
  have hdefinitions := hms ("definitions", .array (d.definitions.map Definition.toJson)) (by simp)
  obtain ⟨js, hjs, hsame⟩ := hdefinitions.eq_array
  simp [ofJson?, Json.members?, hjs, Definition.mapM_ofJson?_of_same hsame]

/-- **The JSON form determines the document.** What is written is read back, and two documents
are written as the same value, whether or not the order of members counts, exactly if they are
equal. -/
theorem toJson_faithful (d d' : Document) :
    ofJson? d.toJson = some d ∧ (d.toJson = d'.toJson ↔ d = d') ∧
      (d.toJson.Same d'.toJson ↔ d = d') := by
  have hread : ofJson? d.toJson = some d := ofJson?_of_same (.refl _)
  have hsame : d.toJson.Same d'.toJson ↔ d = d' := by
    refine ⟨fun h => ?_, ?_⟩
    · exact Option.some.inj (hread.symm.trans (ofJson?_of_same h))
    · rintro rfl
      exact .refl _
  refine ⟨hread, ⟨fun h => hsame.1 (h ▸ .refl _), ?_⟩, hsame⟩
  rintro rfl
  rfl

end Document

end QueryFragments
