import Mathlib
import QueryFragments.Registry

/-!
# What its history put into a set

Names get into a set by insertion and travel on by union and copy, until the set that holds them is
replaced. What any number of steps on any number of sets amounts to is said here by the steps alone:

* `Registry.Moves`, `Registry.Carries`: the way of names from set to set, in one step and in many,
* `Registry.Brings`: a name is inserted somewhere and **carried on** to the set,
* `Registry.mem_get_run`: after any steps a set holds just the names that they brought, by induction
  from what one step does (`Registry.mem_get_perform`).

A set has one listing, whatever its history: to sort its members in the byte order gives that
listing however they are enumerated (`NameSet.eq_toList_of_sorted`), so listings can stand for sets
(`Registry.setAfter_canonical`).
-/

namespace QueryFragments

/-! ## Comparing and listing -/

namespace NameSet

variable {s t : NameSet} {n : Name}

/-- As many members, all of them members of the other: the sets are equal. -/
theorem sameMembers_iff : s.sameMembers t = true ↔ s = t := by
  rw [sameMembers, Bool.and_eq_true, beq_iff_eq, List.all_eq_true]
  refine ⟨?_, ?_⟩
  · rintro ⟨hsize, hmem⟩
    have hsub : s.toList ⊆ t.toList := by
      intro n hn
      exact mem_toList.2 (hmem n hn)
    have hlength : t.toList.length ≤ s.toList.length := by
      rw [length_toList, length_toList, hsize]
    have hperm : s.toList.Perm t.toList :=
      (s.nodup_toList.subperm hsub).perm_of_length_le hlength
    refine ext fun n => ?_
    rw [← mem_toList, hperm.mem_iff, mem_toList]
  · rintro rfl
    exact ⟨rfl, fun n hn => mem_toList.1 hn⟩

/-- **One listing**: in whatever order the members are enumerated, and however these are then
sorted, the listing comes out. -/
theorem eq_toList_of_sorted {l l' : List Name} (hl : l.Nodup) (hmem : ∀ n, n ∈ l ↔ n ∈ s)
    (hperm : l'.Perm l) (hsorted : l'.Pairwise fun a b => ¬ b.Before a) : l' = s.toList := by
  have hsame : l.Perm s.toList := by
    refine (List.perm_ext_iff_of_nodup hl s.nodup_toList).2 fun n => ?_
    rw [hmem, mem_toList]
  have hlisting : s.toList.Pairwise fun a b => ¬ b.Before a :=
    s.pairwise_toList.imp fun h => h.asymm
  refine List.Perm.eq_of_pairwise ?_ hsorted hlisting (hperm.trans hsame)
  intro a b _ _ hab hba
  exact Name.eq_of_not_before hba hab

end NameSet

namespace Registry

variable {r : Registry} {step : Name × Command} {steps rest : List (Name × Command)}
  {id k source target n : Name} {c : Command}

/-! ## One step -/

/-- Whether the set loses what it held before. -/
def Command.replaces : Command → Bool
  | .copy _ => true
  | .clear => true
  | _ => false

/-- `Moves step source target`: what the set `source` holds before the step, `target` holds
after it. -/
inductive Moves : Name × Command → Name → Name → Prop where
  /-- a set keeps its members, unless the step replaces it -/
  | kept {step : Name × Command} {id : Name} (h : step.1 = id → step.2.replaces = false) :
      Moves step id id
  /-- the members of another set are added -/
  | united {id other : Name} : Moves (id, .union other) other id
  /-- the set becomes a copy of another -/
  | copied {id other : Name} : Moves (id, .copy other) other id

/-- What a command makes of the set that it is addressed to. -/
theorem mem_get_perform_self :
    n ∈ (r.perform id c).1.get id ↔
      c = .insert n ∨ (c.replaces = false ∧ n ∈ r.get id) ∨
        ∃ other, (c = .union other ∨ c = .copy other) ∧ n ∈ r.get other := by
  cases c with
  | insert m => simp [perform, Command.replaces, eq_comm]
  | contains m => simp [perform, Command.replaces]
  | union other => simp [perform, Command.replaces]
  | equal other => simp [perform, Command.replaces]
  | copy other => simp [perform, Command.replaces]
  | clear => simp [perform, Command.replaces]

/-- **Step lemma**: after a step a set holds the name that was inserted into it, and what moved
there. -/
theorem mem_get_perform :
    n ∈ (r.perform id c).1.get k ↔
      (k = id ∧ c = .insert n) ∨ ∃ source, Moves (id, c) source k ∧ n ∈ r.get source := by
  by_cases hk : k = id
  · subst hk
    rw [mem_get_perform_self]
    refine ⟨?_, ?_⟩
    · rintro (rfl | ⟨hc, hn⟩ | ⟨other, rfl | rfl, hn⟩)
      · exact .inl ⟨rfl, rfl⟩
      · exact .inr ⟨k, .kept fun _ => hc, hn⟩
      · exact .inr ⟨other, .united, hn⟩
      · exact .inr ⟨other, .copied, hn⟩
    · rintro (⟨-, rfl⟩ | ⟨source, hmoves, hn⟩)
      · exact .inl rfl
      · cases hmoves with
        | kept hc => exact .inr (.inl ⟨hc rfl, hn⟩)
        | united => exact .inr (.inr ⟨source, .inl rfl, hn⟩)
        | copied => exact .inr (.inr ⟨source, .inr rfl, hn⟩)
  · rw [get_perform_of_ne r id c hk]
    refine ⟨?_, ?_⟩
    · intro hn
      exact .inr ⟨k, .kept fun h => absurd h.symm hk, hn⟩
    · rintro (⟨rfl, -⟩ | ⟨source, hmoves, hn⟩)
      · exact absurd rfl hk
      · cases hmoves with
        | kept => exact hn
        | united => exact absurd rfl hk
        | copied => exact absurd rfl hk

/-! ## The steps of a run -/

theorem run_cons (r : Registry) (id : Name) (c : Command) (rest : List (Name × Command)) :
    r.run ((id, c) :: rest) =
      (((r.perform id c).1.run rest).1, (r.perform id c).2 :: ((r.perform id c).1.run rest).2) :=
  rfl

/-- Steps may be taken in two parts. -/
theorem run_append (r : Registry) (xs ys : List (Name × Command)) :
    r.run (xs ++ ys) = (((r.run xs).1.run ys).1, (r.run xs).2 ++ ((r.run xs).1.run ys).2) := by
  induction xs generalizing r with
  | nil => rfl
  | cons step rest ih =>
    obtain ⟨id, c⟩ := step
    rw [List.cons_append, run_cons, ih, run_cons]
    rfl

/-- Every step is answered once. -/
theorem length_run (r : Registry) (steps : List (Name × Command)) :
    (r.run steps).2.length = steps.length := by
  induction steps generalizing r with
  | nil => rfl
  | cons step rest ih =>
    obtain ⟨id, c⟩ := step
    rw [run_cons, List.length_cons, ih, List.length_cons]

/-- The answer to a step is given by the registry as it is before that step. -/
theorem getElem?_run (r : Registry) (before rest : List (Name × Command)) (id : Name)
    (c : Command) :
    (r.run (before ++ (id, c) :: rest)).2[before.length]? =
      some ((r.run before).1.perform id c).2 := by
  rw [run_append, run_cons, ← length_run r before, List.getElem?_append_right (Nat.le_refl _),
    Nat.sub_self, List.getElem?_cons_zero]

/-- **Separation**: a set to which no step is addressed stays as it is. -/
theorem get_run_of_ne (r : Registry) (hk : ∀ step ∈ steps, step.1 ≠ k) :
    (r.run steps).1.get k = r.get k := by
  induction steps generalizing r with
  | nil => rfl
  | cons step rest ih =>
    obtain ⟨id, c⟩ := step
    obtain ⟨hid, hrest⟩ := List.forall_mem_cons.1 hk
    rw [run_cons, ih _ hrest, get_perform_of_ne r id c (Ne.symm hid)]

/-! ## The way of a name -/

/-- `Carries steps source target`: what `source` holds before the steps, `target` holds after
them. -/
inductive Carries : List (Name × Command) → Name → Name → Prop where
  /-- without a step nothing moves -/
  | nil {id : Name} : Carries [] id id
  /-- one step, and those after it -/
  | cons {step : Name × Command} {rest : List (Name × Command)} {source via target : Name}
      (hstep : Moves step source via) (hrest : Carries rest via target) :
      Carries (step :: rest) source target

theorem carries_nil_iff : Carries [] source target ↔ source = target := by
  refine ⟨?_, ?_⟩
  · rintro ⟨⟩
    rfl
  · rintro rfl
    exact .nil

theorem carries_cons_iff :
    Carries (step :: rest) source target ↔
      ∃ via, Moves step source via ∧ Carries rest via target := by
  refine ⟨?_, ?_⟩
  · intro h
    cases h with
    | cons hstep hrest => exact ⟨_, hstep, hrest⟩
  · rintro ⟨via, hstep, hrest⟩
    exact .cons hstep hrest

/-- The steps bring the name `n` into the set `id`: it is inserted into some set, and the steps
after that carry it on. -/
def Brings (steps : List (Name × Command)) (id n : Name) : Prop :=
  ∃ before holder rest, steps = before ++ (holder, .insert n) :: rest ∧ Carries rest holder id

theorem not_brings_nil : ¬ Brings [] id n := by
  rintro ⟨before, holder, rest, h, -⟩
  exact List.append_ne_nil_of_right_ne_nil _ (List.cons_ne_nil _ _) h.symm

theorem brings_cons_iff :
    Brings ((id, c) :: rest) k n ↔ (c = .insert n ∧ Carries rest id k) ∨ Brings rest k n := by
  refine ⟨?_, ?_⟩
  · rintro ⟨before, holder, later, h, hcarries⟩
    cases before with
    | nil =>
      obtain ⟨hstep, rfl⟩ := List.cons.inj h
      obtain ⟨rfl, rfl⟩ := Prod.mk.inj hstep
      exact .inl ⟨rfl, hcarries⟩
    | cons step before =>
      obtain ⟨rfl, rfl⟩ := List.cons.inj h
      exact .inr ⟨before, holder, later, rfl, hcarries⟩
  · rintro (⟨rfl, hcarries⟩ | ⟨before, holder, later, rfl, hcarries⟩)
    · exact ⟨[], id, rest, rfl, hcarries⟩
    · exact ⟨(id, c) :: before, holder, later, rfl, hcarries⟩

/-- **Run lemma**: after any steps a set holds what they carried there from the sets at the start,
and what they brought. -/
theorem mem_get_run (r : Registry) (steps : List (Name × Command)) (k n : Name) :
    n ∈ (r.run steps).1.get k ↔
      (∃ source, Carries steps source k ∧ n ∈ r.get source) ∨ Brings steps k n := by
  induction steps generalizing r with
  | nil => simp [run, carries_nil_iff, not_brings_nil]
  | cons step rest ih =>
    obtain ⟨id, c⟩ := step
    rw [run_cons, ih, brings_cons_iff]
    simp only [carries_cons_iff, mem_get_perform]
    refine ⟨?_, ?_⟩
    · rintro (⟨via, hrest, ⟨rfl, rfl⟩ | ⟨source, hstep, hn⟩⟩ | hbrings)
      · exact .inr (.inl ⟨rfl, hrest⟩)
      · exact .inl ⟨source, ⟨via, hstep, hrest⟩, hn⟩
      · exact .inr (.inr hbrings)
    · rintro (⟨source, ⟨via, hstep, hrest⟩, hn⟩ | ⟨rfl, hrest⟩ | hbrings)
      · exact .inl ⟨via, hrest, .inr ⟨source, hstep, hn⟩⟩
      · exact .inl ⟨id, hrest, .inl ⟨rfl, rfl⟩⟩
      · exact .inr hbrings

/-! ## Sets after a history -/

/-- The set under an identifier after a history, which begins with every set empty. -/
def setAfter (history : List (Name × Command)) (id : Name) : NameSet :=
  ((∅ : Registry).run history).1.get id

/-- A set holds exactly the names that its history brought into it. -/
theorem mem_setAfter {history : List (Name × Command)} :
    n ∈ setAfter history id ↔ Brings history id n := by
  simp [setAfter, mem_get_run]

/-- Steps that are not addressed to a set leave it as it was. -/
theorem setAfter_append_of_ne {history later : List (Name × Command)}
    (hk : ∀ step ∈ later, step.1 ≠ k) : setAfter (history ++ later) k = setAfter history k := by
  rw [setAfter, run_append]
  exact get_run_of_ne _ hk

/-- A copy holds what the other set held. -/
theorem setAfter_copy (history : List (Name × Command)) (id other : Name) :
    setAfter (history ++ [(id, .copy other)]) id = setAfter history other := by
  rw [setAfter, run_append]
  exact get_put_self ..

/-- **Name sets are canonical over whole histories**, of any steps on any number of sets.

* A set holds exactly the names that the history brought into it.
* An insertion answers whether the name was not there just before.
* A step changes no set but the one it is addressed to. So a copy stays what the original was,
  whatever is done to that later, and the original stays what it is, whatever is done to the copy.
* A listing ascends strictly in the byte order and shows exactly the members; its length is the size
  of the set, and it is empty exactly if the set is. It is what sorting the members gives, in
  whatever order they are enumerated.
* Two sets compare equal exactly if their listings are equal, which is so exactly if their histories
  brought the same names, in whatever order. -/
theorem setAfter_canonical (history : List (Name × Command)) :
    (∀ id n, n ∈ setAfter history id ↔ Brings history id n) ∧
    (∀ before id n rest, history = before ++ (id, .insert n) :: rest →
      ∃ isNew, ((∅ : Registry).run history).2[before.length]? = some (some isNew) ∧
        (isNew = true ↔ n ∉ setAfter before id)) ∧
    (∀ before id c rest, history = before ++ (id, c) :: rest →
      ∀ k, k ≠ id → setAfter (before ++ [(id, c)]) k = setAfter before k) ∧
    (∀ before id other rest, history = before ++ (id, .copy other) :: rest →
      ((∀ step ∈ rest, step.1 ≠ id) → setAfter history id = setAfter before other) ∧
      (id ≠ other → (∀ step ∈ rest, step.1 ≠ other) →
        setAfter history other = setAfter before other)) ∧
    (∀ id, (setAfter history id).toList.Pairwise Name.Before ∧
      (∀ n, n ∈ (setAfter history id).toList ↔ Brings history id n) ∧
      (setAfter history id).toList.length = (setAfter history id).size ∧
      ((setAfter history id).isEmpty = true ↔ (setAfter history id).toList = []) ∧
      ∀ l l', l.Nodup → (∀ n, n ∈ l ↔ Brings history id n) → l'.Perm l →
        (l'.Pairwise fun a b => ¬ b.Before a) → l' = (setAfter history id).toList) ∧
    ∀ id history' id',
      ((setAfter history id).sameMembers (setAfter history' id') = true ↔
        (setAfter history id).toList = (setAfter history' id').toList) ∧
      ((setAfter history id).toList = (setAfter history' id').toList ↔
        ∀ n, Brings history id n ↔ Brings history' id' n) := by
  refine ⟨fun id n => mem_setAfter, ?_, ?_, ?_, ?_, ?_⟩
  · rintro before id n rest rfl
    refine ⟨_, getElem?_run ∅ before rest id (.insert n), ?_⟩
    rw [Bool.not_eq_true', ← Bool.not_eq_true, NameSet.contains_iff_mem, setAfter]
  · rintro before id c rest rfl k hk
    refine setAfter_append_of_ne fun step hstep => ?_
    rw [List.mem_singleton.1 hstep]
    exact Ne.symm hk
  · rintro before id other rest rfl
    rw [List.append_cons]
    refine ⟨?_, ?_⟩
    · intro hrest
      rw [setAfter_append_of_ne hrest, setAfter_copy]
    · intro hne hrest
      rw [setAfter_append_of_ne hrest]
      refine setAfter_append_of_ne fun step hstep => ?_
      rw [List.mem_singleton.1 hstep]
      exact hne
  · intro id
    refine ⟨NameSet.pairwise_toList _, fun n => NameSet.mem_toList.trans mem_setAfter,
      NameSet.length_toList _, NameSet.isEmpty_iff, ?_⟩
    intro l l' hl hmem hperm hsorted
    exact NameSet.eq_toList_of_sorted hl (fun n => (hmem n).trans mem_setAfter.symm) hperm hsorted
  · intro id history' id'
    refine ⟨NameSet.sameMembers_iff.trans NameSet.toList_inj.symm, ?_⟩
    rw [NameSet.toList_inj]
    refine ⟨?_, ?_⟩
    · intro h n
      rw [← mem_setAfter, h, mem_setAfter]
    · intro h
      exact NameSet.ext fun n => mem_setAfter.trans ((h n).trans mem_setAfter.symm)

/-- Two sets that come to the same members in different ways, and a copy made on the way. -/
def shuffled : List (Name × Command) := [
  ("left", .insert "x"), ("copy", .copy "left"), ("left", .insert "é"),
  ("right", .insert "é"), ("right", .union "copy"), ("right", .insert "x")]

theorem setAfter_canonical_shuffled :
    (∃ isNew, ((∅ : Registry).run shuffled).2[5]? = some (some isNew) ∧
      (isNew = true ↔ "x" ∉ setAfter (shuffled.take 5) "right")) ∧
    setAfter (shuffled.take 3) "copy" = setAfter (shuffled.take 2) "copy" ∧
    setAfter shuffled "copy" = setAfter (shuffled.take 1) "left" ∧
    ["x", "é"] = (setAfter shuffled "left").toList ∧
    (setAfter shuffled "left").sameMembers (setAfter shuffled "right") = true := by
  obtain ⟨hmem, hinsert, hstep, hcopy, hlisting, hequal⟩ := setAfter_canonical shuffled
  have hleft : setAfter shuffled "left" = (∅ : NameSet).insertAll ["é", "x"] := by cbv
  have hright : setAfter shuffled "right" = (∅ : NameSet).insertAll ["é", "x"] := by cbv
  obtain ⟨-, -, -, -, hsorted⟩ := hlisting "left"
  refine ⟨hinsert (shuffled.take 5) "right" "x" [] rfl, ?_, ?_, ?_, ?_⟩
  · exact hstep (shuffled.take 2) "left" (.insert "é") (shuffled.drop 3) rfl "copy" (by decide)
  · exact (hcopy (shuffled.take 1) "copy" "left" (shuffled.drop 2) rfl).1 (by decide)
  · -- the members in the order of insertion, and sorted
    refine hsorted ["é", "x"] ["x", "é"] (by decide) (fun n => ?_) (by decide) (by decide)
    rw [← hmem, hleft]
    simp
  · exact (hequal "left" shuffled "right").1.2 (by rw [hleft, hright])

end Registry

end QueryFragments
