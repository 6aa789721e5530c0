import Mathlib.Data.List.Pairwise
import Mathlib.Data.List.Perm.Basic
import MinCostFlow.Labelled.FlowTable
import MinCostFlow.Proofs.Input.Names

/-! # Items by what they name

A list can be gone through by representatives: for each of them, the items whose key is the same.
If no two representatives are the same this rearranges the list, and it changes nothing if the items
already stand in this order. Representatives come from keeping each value that is not the same as
one that was kept before.
-/

namespace MinCostFlow.Labelled

variable {β γ : Type} {key : β → Value} {reps kept values : List Value} {rep value : Value}

def Apart (values : List Value) : Prop :=
  values.Pairwise fun left right => left.same right = false

theorem Apart.eq_of_same {items : List β} (apart : Apart (items.map key)) {left right : β}
    (first : left ∈ items) (second : right ∈ items) (same : (key left).same (key right)) :
    left = right := by
  by_contra differ
  have symmetric : Std.Symm fun left right : β => (key left).same (key right) = false :=
    ⟨fun left right distinct => by rw [Value.same_comm, distinct]⟩
  have distinct := (List.pairwise_map.mp apart).forall first second differ
  rw [distinct] at same
  cases same

section keep

/-- The value is kept unless it is the same as one that was kept before. -/
def keep (kept : List Value) (value : Value) : List Value :=
  if kept.any (Value.same value) then kept else kept ++ [value]

theorem distinct_eq (values : List Value) : Graph.distinct values = values.foldl keep [] := rfl

theorem any_same_iff : kept.any (Value.same value) = true ↔ ∃ rep ∈ kept, value.same rep :=
  List.any_eq_true

theorem keep_eq_or (kept : List Value) (value : Value) :
    (keep kept value = kept ∧ ∃ rep ∈ kept, value.same rep) ∨
      (keep kept value = kept ++ [value] ∧ ∀ rep ∈ kept, rep.same value = false) := by
  by_cases known : kept.any (Value.same value)
  · exact .inl ⟨if_pos known, any_same_iff.mp known⟩
  · refine .inr ⟨if_neg known, fun rep member => ?_⟩
    by_contra same
    rw [Bool.not_eq_false] at same
    exact known (any_same_iff.mpr ⟨rep, member, Value.same_symm same⟩)

theorem Apart.keep (apart : Apart kept) (value : Value) : Apart (keep kept value) := by
  rcases keep_eq_or kept value with ⟨same, _⟩ | ⟨more, distinct⟩
  · rwa [same]
  · rw [more]
    exact List.pairwise_append.mpr ⟨apart, List.pairwise_singleton _ _, by simpa using distinct⟩

theorem mem_keep : rep ∈ keep kept value → rep ∈ kept ∨ rep = value := by
  rcases keep_eq_or kept value with ⟨same, _⟩ | ⟨more, _⟩
  · rw [same]
    exact .inl
  · rw [more]
    simp

theorem mem_keep_of_mem (member : rep ∈ kept) : rep ∈ keep kept value := by
  rcases keep_eq_or kept value with ⟨same, _⟩ | ⟨more, _⟩
  · rwa [same]
  · rw [more]
    exact List.mem_append_left _ member

theorem exists_mem_keep (kept : List Value) (value : Value) :
    ∃ rep ∈ keep kept value, value.same rep := by
  rcases keep_eq_or kept value with ⟨same, found⟩ | ⟨more, _⟩
  · rwa [same]
  · rw [more]
    exact ⟨value, by simp, value.same_refl⟩

theorem Apart.foldl_keep (values : List Value) (apart : Apart kept) :
    Apart (values.foldl Labelled.keep kept) := by
  induction values generalizing kept with
  | nil => exact apart
  | cons value rest ih => exact ih (apart.keep value)

theorem mem_foldl_keep (values : List Value) :
    rep ∈ values.foldl keep kept → rep ∈ kept ∨ rep ∈ values := by
  induction values generalizing kept with
  | nil => exact .inl
  | cons value rest ih =>
      intro member
      rcases ih member with member | member
      · rcases mem_keep member with member | rfl
        · exact .inl member
        · exact .inr List.mem_cons_self
      · exact .inr (List.mem_cons_of_mem _ member)

theorem mem_foldl_keep_of_mem (values : List Value) (member : rep ∈ kept) :
    rep ∈ values.foldl keep kept := by
  induction values generalizing kept with
  | nil => exact member
  | cons value rest ih => exact ih (mem_keep_of_mem member)

theorem foldl_keep_of_known (known : ∀ value ∈ values, ∃ rep ∈ kept, value.same rep) :
    values.foldl keep kept = kept := by
  induction values with
  | nil => rfl
  | cons value rest ih =>
      obtain ⟨first, others⟩ := List.forall_mem_cons.mp known
      rw [List.foldl_cons, keep, if_pos (any_same_iff.mpr first), ih others]

end keep

theorem apart_distinct (values : List Value) : Apart (Graph.distinct values) :=
  Apart.foldl_keep values List.Pairwise.nil

theorem mem_of_mem_distinct (member : rep ∈ Graph.distinct values) : rep ∈ values :=
  (mem_foldl_keep values member).resolve_left (by simp)

theorem exists_same_distinct (member : value ∈ values) :
    ∃ rep ∈ Graph.distinct values, value.same rep := by
  obtain ⟨before, after, rfl⟩ := List.append_of_mem member
  rw [distinct_eq, List.foldl_append, List.foldl_cons]
  obtain ⟨rep, here, same⟩ := exists_mem_keep (before.foldl keep []) value
  exact ⟨rep, mem_foldl_keep_of_mem after here, same⟩

section groups

variable (key) {items : List γ} {f : γ → β} {group : Value → List β}

theorem perm_groups (apart : Apart reps) {items : List β}
    (covered : ∀ item ∈ items, ∃ rep ∈ reps, (key item).same rep) :
    (reps.flatMap fun rep => items.filter fun item => (key item).same rep).Perm items := by
  induction reps generalizing items with
  | nil =>
      have nothing : items = [] := List.eq_nil_iff_forall_not_mem.mpr fun item member => by
        simpa using covered item member
      simp [nothing]
  | cons rep rest ih =>
      obtain ⟨first, apart⟩ := List.pairwise_cons.mp apart
      have others : ∀ item ∈ items.filter fun item => !(key item).same rep,
          ∃ rep ∈ rest, (key item).same rep := by
        intro item member
        obtain ⟨inside, differ⟩ := List.mem_filter.mp member
        obtain ⟨other, found, same⟩ := covered item inside
        rcases List.mem_cons.mp found with rfl | found
        · simp [same] at differ
        · exact ⟨other, found, same⟩
      have later : (rest.flatMap fun other => items.filter fun item => (key item).same other) =
          rest.flatMap fun other =>
            (items.filter fun item => !(key item).same rep).filter fun item => (key item).same other := by
        refine List.flatMap_congr fun other member => ?_
        rw [List.filter_filter]
        refine List.filter_congr fun item _ => ?_
        cases same : (key item).same other with
        | false => rfl
        | true => rw [Value.same_congr same, Value.same_comm, first other member]; rfl
      rw [List.flatMap_cons, later]
      exact ((ih apart others).append_left _).trans (List.filter_append_perm _ items)

/-- A group for each of some representatives, of which no two are the same; the items of a group
    have its representative for their key. -/
structure Grouping (key : β → Value) (reps : List Value) (group : Value → List β) : Prop where
  apart : Apart reps
  keyed : ∀ rep ∈ reps, ∀ item ∈ group rep, key item = rep

namespace Grouping

variable {key} {first : Value} {rest : List Value}

theorem tail (grouping : Grouping key (first :: rest) group) : Grouping key rest group where
  apart := (List.pairwise_cons.mp grouping.apart).2
  keyed rep member := grouping.keyed rep (List.mem_cons_of_mem _ member)

theorem same_head (grouping : Grouping key (first :: rest) group) (member : rep ∈ rest) :
    rep.same first = false := by
  rw [Value.same_comm, (List.pairwise_cons.mp grouping.apart).1 rep member]

theorem same_of_mem (grouping : Grouping key reps group) (member : rep ∈ reps) {item : β}
    (inside : item ∈ group rep) : (key item).same rep = true := by
  rw [grouping.keyed rep member item inside, rep.same_refl]

theorem filter_eq (grouping : Grouping key reps group) (member : rep ∈ reps) :
    ((reps.flatMap group).filter fun item => (key item).same rep) = group rep := by
  induction reps with
  | nil => simp at member
  | cons first rest ih =>
      rw [List.flatMap_cons, List.filter_append]
      cases List.mem_cons.mp member with
      | inl here =>
          subst here
          have all : (group rep).filter (fun item => (key item).same rep) = group rep :=
            List.filter_eq_self.mpr fun _ => grouping.same_of_mem member
          have none : ((rest.flatMap group).filter fun item => (key item).same rep) = [] := by
            refine List.filter_eq_nil_iff.mpr fun item inside => ?_
            obtain ⟨other, found, inside⟩ := List.mem_flatMap.mp inside
            rw [grouping.tail.keyed other found item inside, grouping.same_head found]
            simp
          rw [all, none, List.append_nil]
      | inr later =>
          have none : ((group first).filter fun item => (key item).same rep) = [] := by
            refine List.filter_eq_nil_iff.mpr fun item inside => ?_
            rw [grouping.keyed first List.mem_cons_self item inside, Value.same_comm,
              grouping.same_head later]
            simp
          rw [none, List.nil_append, ih grouping.tail later]

/-- What stands group by group can be split into its groups. -/
theorem exists_split (grouping : Grouping key reps group) (ordered : items.map f = reps.flatMap group) :
    ∃ share, items = reps.flatMap share ∧ ∀ rep ∈ reps, (share rep).map f = group rep := by
  induction reps generalizing items with
  | nil => exact ⟨fun _ => [], by simpa using ordered, by simp⟩
  | cons first rest ih =>
      obtain ⟨here, later, rfl, run, ordered⟩ := List.map_eq_append_iff.mp ordered
      obtain ⟨share, rfl, shares⟩ := ih grouping.tail ordered
      refine ⟨fun rep => if rep.same first then here else share rep, ?_, ?_⟩
      · have others : (rest.flatMap fun rep => if rep.same first then here else share rep) =
            rest.flatMap share :=
          List.flatMap_congr fun rep member => by simp [grouping.same_head member]
        rw [List.flatMap_cons, others, if_pos first.same_refl]
      · refine List.forall_mem_cons.mpr ⟨by simpa [first.same_refl] using run, fun rep member => ?_⟩
        simpa [grouping.same_head member] using shares rep member

/-- Items that stand group by group are not moved when they are picked by representatives. -/
theorem regroup (grouping : Grouping key reps group) (ordered : items.map f = reps.flatMap group) :
    (reps.flatMap fun rep => items.filter fun item => (key (f item)).same rep) = items := by
  obtain ⟨share, rfl, shares⟩ := grouping.exists_split ordered
  have pulled : Grouping (fun item => key (f item)) reps share := {
    apart := grouping.apart
    keyed := fun rep member item inside =>
      grouping.keyed rep member (f item) (shares rep member ▸ List.mem_map_of_mem inside) }
  exact List.flatMap_congr fun rep member => pulled.filter_eq member

theorem foldl_keep (grouping : Grouping key reps group) (filled : ∀ rep ∈ reps, group rep ≠ [])
    (apart : Apart (kept ++ reps)) :
    ((reps.flatMap group).map key).foldl keep kept = kept ++ reps := by
  induction reps generalizing kept with
  | nil => simp
  | cons first rest ih =>
      obtain ⟨present, filled⟩ := List.forall_mem_cons.mp filled
      obtain ⟨_, _, differ⟩ := List.pairwise_append.mp apart
      obtain ⟨item, run, found⟩ := List.exists_cons_of_ne_nil present
      have begins : ∀ item ∈ group first, key item = first := grouping.keyed first List.mem_cons_self
      have fresh : ¬ kept.any (Value.same first) = true := by
        rw [any_same_iff]
        rintro ⟨rep, member, same⟩
        have distinct := differ rep member first List.mem_cons_self
        rw [Value.same_comm, same] at distinct
        cases distinct
      have known : ∀ value ∈ run.map key, ∃ rep ∈ kept ++ [first], value.same rep := by
        intro value inside
        obtain ⟨other, later, rfl⟩ := List.mem_map.mp inside
        have member : other ∈ group first := by simp [found, later]
        exact ⟨first, by simp, grouping.same_of_mem List.mem_cons_self member⟩
      have later : Apart ((kept ++ [first]) ++ rest) := by simpa using apart
      rw [List.flatMap_cons, found, List.map_append, List.map_cons, begins item (by simp [found]),
        List.foldl_append, List.foldl_cons, keep, if_neg fresh, foldl_keep_of_known known,
        ih grouping.tail filled later]
      simp

theorem distinct_eq (grouping : Grouping key reps group) (filled : ∀ rep ∈ reps, group rep ≠ []) :
    Graph.distinct ((reps.flatMap group).map key) = reps :=
  @foldl_keep _ key reps [] group grouping filled grouping.apart

end Grouping

theorem filter_same (apart : Apart reps) (member : rep ∈ reps) :
    (reps.filter fun other => other.same rep) = [rep] := by
  have single : Grouping id reps fun rep => [rep] := ⟨apart, by simp⟩
  simpa using single.filter_eq member

end groups

end MinCostFlow.Labelled
