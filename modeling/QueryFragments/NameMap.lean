import QueryFragments.Name

/-!
# Maps keyed by names

A `NameMap α` is a list of entries whose keys ascend in the byte order. The order is
part of the type, so

* every finite map has exactly **one** representation: maps that answer every look-up
  alike are equal (`NameMap.ext_get?`),
* the entries are already listed in the order in which they are shown.

The look-up laws `get?_empty` and `get?_insert` determine every map that is built from
`∅` by insertions; insertion replaces what was stored under the name before.
-/

namespace QueryFragments

universe u

/-- A finite map from names, its entries ascending by key. -/
structure NameMap (α : Type u) where
  /-- the entries, one for each key -/
  entries : List (Name × α)
  /-- the keys ascend -/
  ascending : entries.Pairwise fun e f => e.1.Before f.1
  deriving DecidableEq

namespace NameMap

variable {α : Type u}

/-! ## Operations -/

/-- The map without entries. -/
protected def empty : NameMap α := ⟨[], .nil⟩

instance : EmptyCollection (NameMap α) := ⟨NameMap.empty⟩

instance : Inhabited (NameMap α) := ⟨∅⟩

/-- What is stored under the name `n`. -/
def get? (m : NameMap α) (n : Name) : Option α := m.entries.lookup n

/-- The keys, ascending. -/
def keys (m : NameMap α) : List Name := m.entries.map Prod.fst

/-- The number of entries. -/
def size (m : NameMap α) : Nat := m.entries.length

/-- One pass over ascending entries: put `(n, a)` in its place, in place of an entry
that has the same key. -/
def insertEntry (n : Name) (a : α) : List (Name × α) → List (Name × α)
  | [] => [(n, a)]
  | e :: es =>
    if n = e.1 then (n, a) :: es
    else if n.Before e.1 then (n, a) :: e :: es
    else e :: insertEntry n a es

theorem mem_insertEntry {n : Name} {a : α} {e : Name × α} {es : List (Name × α)}
    (he : e ∈ insertEntry n a es) : e = (n, a) ∨ e ∈ es := by
  induction es with
  | nil => simpa [insertEntry] using he
  | cons f fs ih =>
    simp only [insertEntry] at he
    split at he
    · rcases List.mem_cons.1 he with he | he
      · exact .inl he
      · exact .inr (List.mem_cons_of_mem _ he)
    · split at he
      · exact List.mem_cons.1 he
      · rcases List.mem_cons.1 he with rfl | he
        · exact .inr List.mem_cons_self
        · exact (ih he).imp_right (List.mem_cons_of_mem _)

theorem pairwise_insertEntry (n : Name) (a : α) {es : List (Name × α)}
    (hes : es.Pairwise fun e f => e.1.Before f.1) :
    (insertEntry n a es).Pairwise fun e f => e.1.Before f.1 := by
  induction es with
  | nil => exact List.pairwise_singleton ..
  | cons f fs ih =>
    obtain ⟨hf, hfs⟩ := List.pairwise_cons.1 hes
    simp only [insertEntry]
    split
    -- replaced: the new entry has the key of the old one
    next hn => exact List.pairwise_cons.2 ⟨fun e he => hn ▸ hf e he, hfs⟩
    next hn =>
      split
      next hlt =>
        refine List.pairwise_cons.2 ⟨fun e he => ?_, hes⟩
        rcases List.mem_cons.1 he with rfl | he
        · exact hlt
        · exact hlt.trans (hf e he)
      next hlt =>
        refine List.pairwise_cons.2 ⟨fun e he => ?_, ih hfs⟩
        rcases mem_insertEntry he with rfl | he
        · exact Name.before_of_ne hn hlt
        · exact hf e he

/-- Store `a` under the name `n`, in place of what was stored there. -/
def insert (m : NameMap α) (n : Name) (a : α) : NameMap α :=
  ⟨insertEntry n a m.entries, pairwise_insertEntry n a m.ascending⟩

/-! ## Look-up -/

@[simp] theorem get?_empty (n : Name) : (∅ : NameMap α).get? n = none := rfl

@[simp] theorem keys_empty : (∅ : NameMap α).keys = [] := rfl

@[simp] theorem size_empty : (∅ : NameMap α).size = 0 := rfl

/-- A look-up takes the first entry with the key. -/
theorem lookup_cons (k : Name) (e : Name × α) (es : List (Name × α)) :
    (e :: es).lookup k = if k = e.1 then some e.2 else es.lookup k := by
  obtain ⟨n, a⟩ := e
  by_cases hk : k = n
  · rw [hk, if_pos rfl, List.lookup_cons_self]
  · have hk' : (k == n) = false := beq_eq_false_iff_ne.2 hk
    rw [if_neg hk, List.lookup_cons, hk']

theorem lookup_insertEntry (n k : Name) (a : α) (es : List (Name × α)) :
    (insertEntry n a es).lookup k = if k = n then some a else es.lookup k := by
  induction es with
  | nil => simp [insertEntry, lookup_cons]
  | cons f fs ih =>
    obtain ⟨m, b⟩ := f
    simp only [insertEntry]
    split
    next hn =>
      subst hn
      by_cases hk : k = n <;> simp [lookup_cons, hk]
    next hn =>
      split
      next => by_cases hk : k = n <;> simp [lookup_cons, hk]
      next =>
        by_cases hk : k = m
        · subst hk
          simp [Ne.symm hn]
        · simp [lookup_cons, hk, ih]

/-- **Look-up after insertion**: the name inserted finds the new value, every other
name what it found before. -/
theorem get?_insert (m : NameMap α) (n k : Name) (a : α) :
    (m.insert n a).get? k = if k = n then some a else m.get? k :=
  lookup_insertEntry n k a m.entries

@[simp] theorem get?_insert_self (m : NameMap α) (n : Name) (a : α) :
    (m.insert n a).get? n = some a := by
  simp [get?_insert]

theorem get?_insert_of_ne (m : NameMap α) {n k : Name} (a : α) (hk : k ≠ n) :
    (m.insert n a).get? k = m.get? k := by
  simp [get?_insert, hk]

/-- An entry is found under its key: no other entry has that key. -/
theorem lookup_eq_some_iff_mem {es : List (Name × α)}
    (hes : es.Pairwise fun e f => e.1.Before f.1) {n : Name} {a : α} :
    es.lookup n = some a ↔ (n, a) ∈ es := by
  induction es with
  | nil => simp
  | cons f fs ih =>
    obtain ⟨m, b⟩ := f
    obtain ⟨hf, hfs⟩ := List.pairwise_cons.1 hes
    by_cases hn : n = m
    · subst hn
      have hfresh : (n, a) ∉ fs := fun hmem => (hf _ hmem).ne rfl
      simp [hfresh, eq_comm]
    · simp [lookup_cons, hn, ih hfs]

theorem get?_eq_some_iff {m : NameMap α} {n : Name} {a : α} :
    m.get? n = some a ↔ (n, a) ∈ m.entries :=
  lookup_eq_some_iff_mem m.ascending

/-- The keys are the names under which something is stored. -/
theorem mem_keys_iff {m : NameMap α} {n : Name} : n ∈ m.keys ↔ ∃ a, m.get? n = some a := by
  simp [keys, get?_eq_some_iff]

theorem get?_eq_none_iff {m : NameMap α} {n : Name} : m.get? n = none ↔ n ∉ m.keys := by
  rw [mem_keys_iff]
  cases m.get? n <;> simp

/-! ## The keys -/

/-- The keys ascend in the byte order. -/
theorem pairwise_keys (m : NameMap α) : m.keys.Pairwise Name.Before :=
  List.pairwise_map.2 m.ascending

/-- Every key is listed once. -/
theorem nodup_keys (m : NameMap α) : m.keys.Nodup :=
  m.pairwise_keys.imp Name.Before.ne

@[simp] theorem length_keys (m : NameMap α) : m.keys.length = m.size :=
  List.length_map ..

theorem mem_keys_insert {m : NameMap α} {n k : Name} {a : α} :
    k ∈ (m.insert n a).keys ↔ k = n ∨ k ∈ m.keys := by
  simp only [mem_keys_iff, get?_insert]
  by_cases hk : k = n <;> simp [hk]

/-! ## Extensionality -/

/-- Ascending entry lists with the same members are the same list. -/
theorem entries_ext {es fs : List (Name × α)}
    (hes : es.Pairwise fun e f => e.1.Before f.1)
    (hfs : fs.Pairwise fun e f => e.1.Before f.1)
    (hmem : ∀ e, e ∈ es ↔ e ∈ fs) : es = fs := by
  induction es generalizing fs with
  | nil =>
    cases fs with
    | nil => rfl
    | cons f fs => exact absurd ((hmem f).2 List.mem_cons_self) List.not_mem_nil
  | cons e es ih =>
    cases fs with
    | nil => exact absurd ((hmem e).1 List.mem_cons_self) List.not_mem_nil
    | cons f fs =>
      obtain ⟨he, hes'⟩ := List.pairwise_cons.1 hes
      obtain ⟨hf, hfs'⟩ := List.pairwise_cons.1 hfs
      -- each head stands in the other list; were they different, each would precede the other
      have hhead : e = f := by
        rcases List.mem_cons.1 ((hmem e).1 List.mem_cons_self) with h | h
        · exact h
        · rcases List.mem_cons.1 ((hmem f).2 List.mem_cons_self) with h' | h'
          · exact h'.symm
          · exact absurd (hf e h) (he f h').asymm
      subst hhead
      -- the head occurs in neither tail, so the tails have the same members
      have htail : es = fs := by
        refine ih hes' hfs' fun g => ?_
        constructor
        · intro hg
          rcases List.mem_cons.1 ((hmem g).1 (List.mem_cons_of_mem _ hg)) with h | h
          · subst h
            exact absurd (he g hg) (Name.Before.irrefl _)
          · exact h
        · intro hg
          rcases List.mem_cons.1 ((hmem g).2 (List.mem_cons_of_mem _ hg)) with h | h
          · subst h
            exact absurd (hf g hg) (Name.Before.irrefl _)
          · exact h
      rw [htail]

/-- **Extensionality**: a map is determined by its look-ups. -/
theorem ext_get? {m m' : NameMap α} (h : ∀ n, m.get? n = m'.get? n) : m = m' := by
  obtain ⟨es, hes⟩ := m
  obtain ⟨fs, hfs⟩ := m'
  have hmem : ∀ e, e ∈ es ↔ e ∈ fs := by
    rintro ⟨n, a⟩
    rw [← lookup_eq_some_iff_mem hes, ← lookup_eq_some_iff_mem hfs]
    exact iff_of_eq (congrArg (· = some a) (h n))
  cases entries_ext hes hfs hmem
  rfl

end NameMap

end QueryFragments
