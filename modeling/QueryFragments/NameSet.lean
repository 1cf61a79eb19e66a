import QueryFragments.NameMap

/-!
# Sets of names

A `NameSet` holds every name at most once and lists its members in the byte order.
It is a map from its members to the one value of `Unit`, so a set has one
representation:

* `NameSet.ext`: sets with the same members are equal,
* `NameSet.toList_inj`: sets are equal exactly if their listings are.

Each operation has one membership law: `mem_insert`, `mem_union`, `not_mem_empty`.
-/

namespace QueryFragments

/-- A finite set of names. -/
structure NameSet where
  /-- the members, each mapped to the unit value -/
  index : NameMap Unit
  deriving DecidableEq

namespace NameSet

/-! ## Operations -/

/-- The set without members. -/
protected def empty : NameSet := ⟨∅⟩

instance : EmptyCollection NameSet := ⟨NameSet.empty⟩

instance : Inhabited NameSet := ⟨∅⟩

/-- The members in ascending byte order. -/
def toList (s : NameSet) : List Name := s.index.keys

/-- The number of members. -/
def size (s : NameSet) : Nat := s.index.size

/-- Whether the set has no member. -/
def isEmpty (s : NameSet) : Bool := s.index.entries.isEmpty

/-- Whether `n` is a member. -/
def contains (s : NameSet) (n : Name) : Bool := (s.index.get? n).isSome

/-- Add the name `n`. -/
def insert (s : NameSet) (n : Name) : NameSet := ⟨s.index.insert n ()⟩

/-- Add every name of a list. -/
def insertAll (s : NameSet) (ns : List Name) : NameSet := ns.foldl insert s

/-- Add every member of `t`. -/
protected def union (s t : NameSet) : NameSet := s.insertAll t.toList

instance : Union NameSet := ⟨NameSet.union⟩

/-- Whether two sets have the same members: as many, and each of the first is in the second. -/
def sameMembers (s t : NameSet) : Bool := s.size == t.size && s.toList.all t.contains

/-! ## Membership -/

instance : Membership Name NameSet where
  mem s n := s.contains n = true

instance (s : NameSet) (n : Name) : Decidable (n ∈ s) :=
  inferInstanceAs (Decidable (s.contains n = true))

theorem contains_iff_mem {s : NameSet} {n : Name} : s.contains n = true ↔ n ∈ s := Iff.rfl

/-- A listing shows exactly the members. -/
@[simp] theorem mem_toList {s : NameSet} {n : Name} : n ∈ s.toList ↔ n ∈ s := by
  rw [← contains_iff_mem, toList, NameMap.mem_keys_iff, contains, Option.isSome_iff_exists]

@[simp] theorem not_mem_empty (n : Name) : n ∉ (∅ : NameSet) := by
  rw [← mem_toList]
  exact List.not_mem_nil

@[simp] theorem mem_insert {s : NameSet} {n k : Name} : k ∈ s.insert n ↔ k = n ∨ k ∈ s := by
  rw [← mem_toList, ← mem_toList]
  exact NameMap.mem_keys_insert

@[simp] theorem mem_insertAll {s : NameSet} {ns : List Name} {k : Name} :
    k ∈ s.insertAll ns ↔ k ∈ ns ∨ k ∈ s := by
  induction ns generalizing s with
  | nil => simp [insertAll]
  | cons n ns ih =>
    rw [insertAll, List.foldl_cons, ← insertAll, ih, mem_insert, List.mem_cons, or_assoc,
      or_left_comm]

@[simp] theorem mem_union {s t : NameSet} {k : Name} : k ∈ s ∪ t ↔ k ∈ s ∨ k ∈ t := by
  change k ∈ s.insertAll t.toList ↔ _
  rw [mem_insertAll, mem_toList, or_comm]

/-! ## Listings -/

/-- A listing ascends in the byte order. -/
theorem pairwise_toList (s : NameSet) : s.toList.Pairwise Name.Before := s.index.pairwise_keys

/-- A listing shows every member once. -/
theorem nodup_toList (s : NameSet) : s.toList.Nodup := s.index.nodup_keys

@[simp] theorem length_toList (s : NameSet) : s.toList.length = s.size := s.index.length_keys

theorem isEmpty_iff {s : NameSet} : s.isEmpty = true ↔ s.toList = [] := by
  simp [isEmpty, toList, NameMap.keys]

/-- **Extensionality**: a set is determined by its members. -/
theorem ext {s t : NameSet} (h : ∀ n, n ∈ s ↔ n ∈ t) : s = t := by
  obtain ⟨m⟩ := s
  obtain ⟨m'⟩ := t
  have hget : ∀ n, m.get? n = m'.get? n := by
    intro n
    have hsome : (m.get? n).isSome = (m'.get? n).isSome := Bool.eq_iff_iff.2 (h n)
    revert hsome
    cases m.get? n <;> cases m'.get? n <;> simp
  cases NameMap.ext_get? hget
  rfl

/-- Sets are equal exactly if their listings are. -/
theorem toList_inj {s t : NameSet} : s.toList = t.toList ↔ s = t := by
  constructor
  · intro h
    exact ext fun n => by rw [← mem_toList, h, mem_toList]
  · rintro rfl
    rfl

end NameSet

end QueryFragments
