import MinCostFlow.Proofs.Input.Groups

/-! # What graphs come to be

A graph is built by adding labels and edges one after the other. However it came to be, no two of
its labels are the same, its edges lie between its labels, and there is one edge at most between two
labels under one key.
-/

namespace MinCostFlow.Labelled

/-- Two edges lie between the same labels and have the same key. -/
def Edge.Clashes (edge other : Edge) : Prop :=
  edge.source.same other.source ∧ edge.target.same other.target ∧ edge.key.same other.key

def Edge.site (edge : Edge) : Value × Value × Value := (edge.source, edge.target, edge.key)

def Known (labels : List Value) (label : Value) : Prop := ∃ other ∈ labels, label.same other

theorem Known.keep {labels : List Value} {label : Value} (known : Known labels label)
    (other : Value) : Known (Labelled.keep labels other) label := by
  obtain ⟨rep, member, same⟩ := known
  exact ⟨rep, mem_keep_of_mem member, same⟩

theorem known_keep (labels : List Value) (label : Value) : Known (keep labels label) label :=
  exists_mem_keep labels label

section lists

variable {α β : Type}

theorem forIn_visited {visit : α → Except Fault (ForInStep PUnit)}
    (onward : ∀ item step, visit item = .ok step → step = .yield ⟨⟩) {items : List α} {last : PUnit}
    (passed : forIn items PUnit.unit (fun item _ => visit item) = .ok last) :
    ∀ item ∈ items, visit item = .ok (.yield ⟨⟩) := by
  induction items with
  | nil => simp
  | cons item rest ih =>
      rw [List.forIn_cons] at passed
      cases seen : visit item with
      | error fault =>
          rw [seen] at passed
          cases passed
      | ok step =>
          obtain rfl := onward item step seen
          rw [seen] at passed
          exact List.forall_mem_cons.mpr ⟨seen, ih passed⟩

theorem map_changeFirst {test : α → Bool} {change : α → α} {f : α → β}
    (same : ∀ entry, f (change entry) = f entry) (entries : List α) :
    (changeFirst test change entries).map f = entries.map f := by
  induction entries with
  | nil => rfl
  | cons entry rest ih =>
      rw [changeFirst]
      split
      · rw [List.map_cons, List.map_cons, same]
      · rw [List.map_cons, List.map_cons, ih]

end lists

namespace Graph

variable {graph : Graph} {labels : List Value} {edges : List Edge} {directed parallel : Bool}

theorem isLabel_of_checked {label : Value} (checked : checkedLabel label = .ok ()) :
    label.isLabel := by
  unfold checkedLabel at checked
  split at checked
  · cases checked
  · split at checked
    · assumption
    · cases checked

theorem build_eq_ok (built : build directed parallel labels edges = .ok graph) :
    (∀ label ∈ labels, label.isLabel) ∧
      (∀ edge ∈ edges, edge.source.isLabel ∧ edge.target.isLabel) ∧
      graph = edges.foldl addEdge (labels.foldl addLabel { directed, parallel }) := by
  unfold build at built
  simp only [bind, Except.bind] at built
  split at built
  · cases built
  · rename_i named
    split at built
    · cases built
    · rename_i joined
      refine ⟨fun label member => ?_, fun edge member => ?_, (Except.ok.inj built).symm⟩
      · have seen := forIn_visited ?_ named label member
        · split at seen
          · cases seen
          · rename_i checked
            exact isLabel_of_checked checked
        · intro item step visited
          split at visited
          · cases visited
          · exact (Except.ok.inj visited).symm
      · have seen := forIn_visited ?_ joined edge member
        · split at seen
          · cases seen
          · rename_i source
            split at seen
            · cases seen
            · rename_i target
              exact ⟨isLabel_of_checked source, isLabel_of_checked target⟩
        · intro item step visited
          split at visited
          · cases visited
          · split at visited
            · cases visited
            · split at visited
              · cases visited
              · exact (Except.ok.inj visited).symm

theorem addLabel_eq (graph : Graph) (label : Value) :
    graph.addLabel label = { graph with labels := keep graph.labels label } := by
  unfold addLabel keep
  split <;> rfl

theorem addEdge_cases (graph : Graph) (edge : Edge) :
    ∃ edges, graph.addEdge edge = { (graph.addLabel edge.source).addLabel edge.target with edges } ∧
      (edges.map Edge.site = graph.edges.map Edge.site ∨
        ∃ key, edges = graph.edges ++ [{ edge with key }] ∧
          ∀ other ∈ graph.edges, ¬ other.Clashes { edge with key }) := by
  unfold addEdge
  dsimp only
  split
  · refine ⟨_, rfl, .inl ?_⟩
    apply map_changeFirst
    exact fun _ => rfl
  · rename_i unknown
    refine ⟨_, rfl, .inr ⟨_, rfl, fun other member clashes => unknown ?_⟩⟩
    obtain ⟨source, target, key⟩ := clashes
    refine List.any_eq_true.mpr ⟨other, member, Bool.and_eq_true_iff.mpr ⟨?_, key⟩⟩
    rw [Edge.joins, source, target]
    rfl

/-- What every addition keeps. -/
structure Grown (graph : Graph) : Prop where
  directed : graph.directed = true
  apart : Apart graph.labels
  labels : ∀ label ∈ graph.labels, label.isLabel
  ends : ∀ edge ∈ graph.edges, Known graph.labels edge.source ∧ Known graph.labels edge.target
  edges : graph.edges.Pairwise fun edge other => ¬ edge.Clashes other

theorem Grown.addLabel (grown : graph.Grown) {label : Value} (named : label.isLabel) :
    (graph.addLabel label).Grown := by
  rw [addLabel_eq]
  exact {
    directed := grown.directed
    apart := grown.apart.keep label
    labels := fun other member => by
      rcases mem_keep member with member | rfl
      · exact grown.labels other member
      · exact named
    ends := fun edge member =>
      (grown.ends edge member).imp (fun known => known.keep label) fun known => known.keep label
    edges := grown.edges }

theorem Grown.addEdge (grown : graph.Grown) {edge : Edge} (source : edge.source.isLabel)
    (target : edge.target.isLabel) : (graph.addEdge edge).Grown := by
  have both := (grown.addLabel source).addLabel target
  have ends := both.ends
  have first : Known ((graph.addLabel edge.source).addLabel edge.target).labels edge.source := by
    rw [addLabel_eq, addLabel_eq]
    exact (known_keep graph.labels edge.source).keep edge.target
  have second : Known ((graph.addLabel edge.source).addLabel edge.target).labels edge.target := by
    rw [addLabel_eq]
    exact known_keep _ edge.target
  have old : ((graph.addLabel edge.source).addLabel edge.target).edges = graph.edges := by
    rw [addLabel_eq, addLabel_eq]
  rw [old] at ends
  obtain ⟨edges, added, change⟩ := graph.addEdge_cases edge
  rw [added]
  refine { directed := both.directed, apart := both.apart, labels := both.labels, ends := ?_, edges := ?_ }
  all_goals rcases change with same | ⟨key, rfl, fresh⟩
  · have sites : ∀ site ∈ graph.edges.map Edge.site,
        Known ((graph.addLabel edge.source).addLabel edge.target).labels site.1 ∧
          Known ((graph.addLabel edge.source).addLabel edge.target).labels site.2.1 :=
      List.forall_mem_map.mpr ends
    rw [← same] at sites
    exact fun other member => sites other.site (List.mem_map_of_mem member)
  · exact List.forall_mem_append.mpr ⟨ends, by simpa using ⟨first, second⟩⟩
  · have sites : (graph.edges.map Edge.site).Pairwise fun site other =>
        ¬ (site.1.same other.1 ∧ site.2.1.same other.2.1 ∧ site.2.2.same other.2.2) :=
      List.pairwise_map.mpr grown.edges
    rw [← same] at sites
    exact List.pairwise_map.mp sites
  · exact List.pairwise_append.mpr ⟨grown.edges, List.pairwise_singleton _ _, by simpa using fresh⟩

theorem Grown.foldl_addLabel (grown : graph.Grown) (named : ∀ label ∈ labels, label.isLabel) :
    (labels.foldl Graph.addLabel graph).Grown := by
  induction labels generalizing graph with
  | nil => exact grown
  | cons label rest ih =>
      obtain ⟨first, others⟩ := List.forall_mem_cons.mp named
      exact ih (grown.addLabel first) others

theorem Grown.foldl_addEdge (grown : graph.Grown)
    (joined : ∀ edge ∈ edges, edge.source.isLabel ∧ edge.target.isLabel) :
    (edges.foldl Graph.addEdge graph).Grown := by
  induction edges generalizing graph with
  | nil => exact grown
  | cons edge rest ih =>
      obtain ⟨first, others⟩ := List.forall_mem_cons.mp joined
      exact ih (grown.addEdge first.1 first.2) others

theorem grown_build (built : build true parallel labels edges = .ok graph) : graph.Grown := by
  obtain ⟨named, joined, rfl⟩ := build_eq_ok built
  have bare : ({ directed := true, parallel } : Graph).Grown :=
    { directed := rfl, apart := .nil, labels := by simp, ends := by simp, edges := .nil }
  exact (bare.foldl_addLabel named).foldl_addEdge joined

end Graph

end MinCostFlow.Labelled
