import Mathlib.Data.List.Forall2
import MinCostFlow.Proofs.Input.Building

/-! # The edges of a graph as they are listed

Edges are listed by label and, within a label, by neighbour; each is seen from the label it is
listed under, with the neighbour by its first name. So the list is a rearrangement of the edges as
they were added, up to the names of their ends.
-/

namespace MinCostFlow.Labelled

/-- The same edge, with ends that are the same but may be given otherwise. -/
structure Edge.Alike (stored seen : Edge) : Prop where
  source : stored.source.same seen.source
  target : stored.target.same seen.target
  key : stored.key = seen.key
  attributes : stored.attributes = seen.attributes

def Edge.seen (label neighbour : Value) (edge : Edge) : Edge :=
  { edge with source := label, target := neighbour }

theorem forall₂_flatMap {α β γ : Type} {R : β → γ → Prop} {items : List α} {f : α → List β}
    {g : α → List γ} (each : ∀ item ∈ items, List.Forall₂ R (f item) (g item)) :
    List.Forall₂ R (items.flatMap f) (items.flatMap g) := by
  induction items with
  | nil => exact .nil
  | cons item rest ih =>
      obtain ⟨first, others⟩ := List.forall_mem_cons.mp each
      exact List.rel_append first (ih others)

theorem exists_of_forall₂ {α β : Type} {R : α → β → Prop} {left : List α} {right : List β}
    (rows : List.Forall₂ R left right) {item : β} (member : item ∈ right) :
    ∃ other ∈ left, R other item := by
  induction rows with
  | nil => simp at member
  | cons first _ ih =>
      rcases List.mem_cons.mp member with rfl | member
      · exact ⟨_, List.mem_cons_self, first⟩
      · obtain ⟨other, inside, related⟩ := ih member
        exact ⟨other, List.mem_cons_of_mem _ inside, related⟩

namespace Graph

variable {graph : Graph} {label neighbour : Value}

/-- No label and no edge of the graph repeats, and the list has its edges in some order, each with
    its ends by names that are the same. -/
structure ListedAs (graph : Graph) (listed : List Edge) : Prop where
  labels : Apart graph.labels
  edges : graph.edges.Pairwise fun edge other => ¬ edge.Clashes other
  all : ∃ arranged, arranged.Perm graph.edges ∧ List.Forall₂ Edge.Alike arranged listed

def leaving (graph : Graph) (label : Value) : List Edge :=
  graph.edges.filter fun edge => edge.source.same label

def neighbours (graph : Graph) (label : Value) : List Value :=
  distinct ((graph.leaving label).map Edge.target)

def between (graph : Graph) (label neighbour : Value) : List Edge :=
  (graph.leaving label).filter fun edge => edge.target.same neighbour

/-- The edges as they were added, in the order in which they are listed. -/
def arranged (graph : Graph) : List Edge :=
  graph.labels.flatMap fun label => (graph.neighbours label).flatMap (graph.between label)

theorem incident_eq (directed : graph.directed = true) (label : Value) :
    graph.incident label = (graph.leaving label).map fun edge => { edge with source := label } := by
  unfold incident leaving
  induction graph.edges with
  | nil => rfl
  | cons edge rest ih =>
      simp only [directed, Bool.not_true, Bool.false_and, Bool.false_eq_true, if_false] at ih ⊢
      cases leaves : edge.source.same label <;> simp [leaves, ih]

theorem edgesAt_eq (directed : graph.directed = true) (label : Value) :
    graph.edgesAt [] label = (graph.neighbours label).flatMap fun neighbour =>
      (graph.between label neighbour).map (Edge.seen label neighbour) := by
  simp only [edgesAt, incident_eq directed, List.any_nil, Bool.not_false, List.filter_true,
    List.map_map, List.filter_map]
  rfl

theorem listed_eq (directed : graph.directed = true) :
    graph.listed = graph.labels.flatMap (graph.edgesAt []) := by
  have step (labels : List Value) (edges : List Edge) :
      (labels.foldl (fun state label =>
        (if graph.directed then [] else label :: state.1, state.2 ++ graph.edgesAt state.1 label))
        (([], edges) : List Value × List Edge)).2 = edges ++ labels.flatMap (graph.edgesAt []) := by
    induction labels generalizing edges with
    | nil => simp
    | cons label rest ih =>
        simp only [directed, if_true] at ih ⊢
        rw [List.foldl_cons, ih]
        simp
  exact (step graph.labels []).trans (List.nil_append _)

theorem source_of_mem_edgesAt (directed : graph.directed = true) {edge : Edge}
    (member : edge ∈ graph.edgesAt [] label) : edge.source = label := by
  rw [edgesAt_eq directed] at member
  obtain ⟨neighbour, _, inside⟩ := List.mem_flatMap.mp member
  obtain ⟨stored, _, rfl⟩ := List.mem_map.mp inside
  rfl

theorem target_of_mem {edge : Edge}
    (member : edge ∈ (graph.between label neighbour).map (Edge.seen label neighbour)) :
    edge.target = neighbour := by
  obtain ⟨stored, _, rfl⟩ := List.mem_map.mp member
  rfl

theorem alike_seen {edge : Edge} (member : edge ∈ graph.between label neighbour) :
    edge.Alike (edge.seen label neighbour) := by
  obtain ⟨inside, target⟩ := List.mem_filter.mp member
  exact ⟨(List.mem_filter.mp inside).2, target, rfl, rfl⟩

theorem between_ne_nil (member : neighbour ∈ graph.neighbours label) :
    graph.between label neighbour ≠ [] := by
  obtain ⟨edge, leaves, rfl⟩ := List.mem_map.mp (mem_of_mem_distinct member)
  exact List.ne_nil_of_mem (List.mem_filter.mpr ⟨leaves, edge.target.same_refl⟩)

theorem forall₂_listed (directed : graph.directed = true) :
    List.Forall₂ Edge.Alike graph.arranged graph.listed := by
  rw [listed_eq directed, arranged]
  refine forall₂_flatMap fun label _ => ?_
  rw [edgesAt_eq directed]
  refine forall₂_flatMap fun neighbour _ => ?_
  rw [List.forall₂_map_right_iff, List.forall₂_same]
  exact fun edge member => alike_seen member

namespace Grown

theorem perm_arranged (grown : graph.Grown) : graph.arranged.Perm graph.edges := by
  have inner (label : Value) :
      ((graph.neighbours label).flatMap (graph.between label)).Perm (graph.leaving label) := by
    refine perm_groups Edge.target (apart_distinct _) fun edge member => ?_
    exact exists_same_distinct (List.mem_map_of_mem member)
  refine (List.Perm.flatMap_left _ fun label _ => inner label).trans ?_
  exact perm_groups Edge.source grown.apart fun edge member => (grown.ends edge member).1

theorem listedAs (grown : graph.Grown) : graph.ListedAs graph.listed :=
  ⟨grown.apart, grown.edges, _, grown.perm_arranged, forall₂_listed grown.directed⟩

theorem exists_stored (grown : graph.Grown) {edge : Edge} (member : edge ∈ graph.listed) :
    ∃ stored ∈ graph.edges, stored.Alike edge := by
  obtain ⟨stored, inside, alike⟩ := exists_of_forall₂ (forall₂_listed grown.directed) member
  exact ⟨stored, grown.perm_arranged.mem_iff.mp inside, alike⟩

/-- Edges from one label to another have different keys. -/
theorem apart_keys (grown : graph.Grown) (label neighbour : Value) :
    Apart ((graph.between label neighbour).map Edge.key) := by
  refine List.pairwise_map.mpr (List.Pairwise.imp_of_mem ?_
    ((grown.edges.sublist List.filter_sublist).sublist List.filter_sublist))
  intro edge other first second clash
  obtain ⟨here, target⟩ := List.mem_filter.mp first
  obtain ⟨there, target'⟩ := List.mem_filter.mp second
  have source := (List.mem_filter.mp here).2
  have source' := (List.mem_filter.mp there).2
  by_contra same
  refine clash ⟨?_, ?_, Bool.not_eq_false _ ▸ same⟩
  · exact Value.same_trans source (Value.same_symm source')
  · exact Value.same_trans target (Value.same_symm target')

end Grown

end Graph

end MinCostFlow.Labelled
