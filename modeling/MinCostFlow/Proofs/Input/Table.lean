import MinCostFlow.Labelled.Flow
import MinCostFlow.Proofs.Input.Listing

/-! # Tables of amounts

A table is made by sorting the amounts on the listed edges into rows, cells and keys. They are
sorted already, so read from the front the table is the list again; and because neither labels nor
neighbours nor keys repeat, the table has each amount under the names of its edge.
-/

namespace MinCostFlow.Labelled

variable {α β : Type} {graph : Graph} {amounts : List (Edge × α)} {label neighbour : Value}

/-- The amounts of a table from the front, each with its row, its cell and its key. -/
def FlowTable.entries (table : FlowTable α) : List ((Value × Value × Value) × α) :=
  table.flatMap fun (label, row) => row.flatMap fun (neighbour, cell) =>
    cell.map fun (key, amount) => ((label, neighbour, key), amount)

/-- The table has a row for each label, and in it what each listed edge carries, under the names of
    the edge. -/
structure FlowTable.Tabulates (table : FlowTable α) (graph : Graph) (flows : List α) : Prop where
  rows : table.map Prod.fst = graph.labels
  entries : table.entries = (graph.listed.zip flows).map fun entry => (entry.1.site, entry.2)
  found : ∀ edge flow, (edge, flow) ∈ graph.listed.zip flows → table.amount? edge = some flow

theorem lastUnder_eq {entries : List (Value × α)} {name : Value} {amount : α}
    (apart : Apart (entries.map Prod.fst)) (member : (name, amount) ∈ entries) :
    lastUnder entries name = some amount := by
  have passes : (entries.reverse.find? fun entry => entry.1.same name).isSome = true :=
    List.find?_isSome.mpr ⟨_, List.mem_reverse.mpr member, name.same_refl⟩
  obtain ⟨found, first⟩ := Option.isSome_iff_exists.mp passes
  have inside := List.mem_reverse.mp (List.mem_of_find?_eq_some first)
  have same := List.find?_some first
  obtain rfl := apart.eq_of_same inside member same
  exact congrArg (Option.map Prod.snd) first

theorem lastUnder_map (f : α → β) (entries : List (Value × α)) (name : Value) :
    lastUnder (entries.map fun entry => (entry.1, f entry.2)) name =
      (lastUnder entries name).map f := by
  rw [lastUnder, lastUnder, ← List.map_reverse, List.find?_map]
  simp [Function.comp_def]

theorem FlowTable.amount?_mapAmounts (f : α → β) (table : FlowTable α) (edge : Edge) :
    (table.mapAmounts f).amount? edge = (table.amount? edge).map f := by
  have row : ((table.mapAmounts f).filter fun entry => entry.1.same edge.source).flatMap Prod.snd =
      ((table.filter fun entry => entry.1.same edge.source).flatMap Prod.snd).map
        fun entry => (entry.1, entry.2.map fun entry => (entry.1, f entry.2)) := by
    rw [mapAmounts, List.filter_map, List.flatMap_map, List.map_flatMap]
    rfl
  rw [amount?, amount?, row, lastUnder_map]
  cases lastUnder _ edge.target with
  | none => rfl
  | some cell => exact lastUnder_map f cell edge.key

section ofListed

def ownAmounts (amounts : List (Edge × α)) (label : Value) : List (Edge × α) :=
  amounts.filter fun entry => entry.1.source.same label

def sharedAmounts (amounts : List (Edge × α)) (label neighbour : Value) : List (Edge × α) :=
  (ownAmounts amounts label).filter fun entry => entry.1.target.same neighbour

/-- What a table has for the edges from one label to another. -/
def cellOf (amounts : List (Edge × α)) (label neighbour : Value) : Cell α :=
  (sharedAmounts amounts label neighbour).map fun entry => (entry.1.key, entry.2)

/-- What a table of a graph has for the edges out of a label. -/
def rowOf (graph : Graph) (amounts : List (Edge × α)) (label : Value) : Row α :=
  (graph.neighbours label).map fun neighbour => (neighbour, cellOf amounts label neighbour)

theorem Graph.Grown.grouping_labels (grown : graph.Grown) :
    Grouping Edge.source graph.labels (graph.edgesAt []) where
  apart := grown.apart
  keyed _ _ _ := Graph.source_of_mem_edgesAt grown.directed

theorem Graph.grouping_neighbours (graph : Graph) (label : Value) :
    Grouping Edge.target (graph.neighbours label) fun neighbour =>
      (graph.between label neighbour).map (Edge.seen label neighbour) where
  apart := apart_distinct _
  keyed _ _ _ := Graph.target_of_mem

variable (grown : graph.Grown) (along : amounts.map Prod.fst = graph.listed)
include grown along

theorem map_fst_ownAmounts (member : label ∈ graph.labels) :
    (ownAmounts amounts label).map Prod.fst = graph.edgesAt [] label := by
  have pick : (amounts.map Prod.fst).filter (fun edge => edge.source.same label) =
      (ownAmounts amounts label).map Prod.fst := List.filter_map
  rw [← pick, along, Graph.listed_eq grown.directed]
  exact grown.grouping_labels.filter_eq member

theorem map_fst_sharedAmounts (member : label ∈ graph.labels)
    (near : neighbour ∈ graph.neighbours label) :
    (sharedAmounts amounts label neighbour).map Prod.fst =
      (graph.between label neighbour).map (Edge.seen label neighbour) := by
  have pick : ((ownAmounts amounts label).map Prod.fst).filter
        (fun edge => edge.target.same neighbour) =
      (sharedAmounts amounts label neighbour).map Prod.fst := List.filter_map
  rw [← pick, map_fst_ownAmounts grown along member, Graph.edgesAt_eq grown.directed]
  exact (graph.grouping_neighbours label).filter_eq near

theorem distinct_targets (member : label ∈ graph.labels) :
    Graph.distinct ((ownAmounts amounts label).map fun entry => entry.1.target) =
      graph.neighbours label := by
  have targets : (ownAmounts amounts label).map (fun entry => entry.1.target) =
      (graph.edgesAt [] label).map Edge.target := by
    rw [← map_fst_ownAmounts grown along member, List.map_map]
    rfl
  rw [targets, Graph.edgesAt_eq grown.directed]
  refine (graph.grouping_neighbours label).distinct_eq fun neighbour near => ?_
  simpa using Graph.between_ne_nil near

theorem flatMap_ownAmounts : graph.labels.flatMap (ownAmounts amounts) = amounts :=
  grown.grouping_labels.regroup (along.trans (Graph.listed_eq grown.directed))

theorem flatMap_sharedAmounts (member : label ∈ graph.labels) :
    (graph.neighbours label).flatMap (sharedAmounts amounts label) = ownAmounts amounts label :=
  (graph.grouping_neighbours label).regroup
    ((map_fst_ownAmounts grown along member).trans (Graph.edgesAt_eq grown.directed label))

theorem ofListed_eq : FlowTable.ofListed graph.labels amounts =
    graph.labels.map fun label => (label, rowOf graph amounts label) := by
  refine List.map_congr_left fun label member => ?_
  have targets := distinct_targets grown along member
  exact congrArg (fun reps : List Value =>
    (label, reps.map fun neighbour => (neighbour, cellOf amounts label neighbour))) targets

/-- Read from the front, the table is the list of amounts again. -/
theorem entries_ofListed :
    (FlowTable.ofListed graph.labels amounts).entries =
      amounts.map fun entry => (entry.1.site, entry.2) := by
  have cell : ∀ label ∈ graph.labels, ∀ neighbour ∈ graph.neighbours label,
      ((cellOf amounts label neighbour).map fun entry => ((label, neighbour, entry.1), entry.2)) =
        (sharedAmounts amounts label neighbour).map fun entry => (entry.1.site, entry.2) := by
    intro label member neighbour near
    rw [cellOf, List.map_map]
    refine List.map_congr_left fun entry inside => ?_
    have edge : entry.1 ∈ (graph.between label neighbour).map (Edge.seen label neighbour) :=
      map_fst_sharedAmounts grown along member near ▸ List.mem_map_of_mem inside
    obtain ⟨stored, _, seen⟩ := List.mem_map.mp edge
    have site : entry.1.site = (label, neighbour, entry.1.key) := by
      rw [← seen]
      rfl
    rw [site]
    rfl
  rw [ofListed_eq grown along, FlowTable.entries, List.flatMap_map]
  conv_rhs => rw [← flatMap_ownAmounts grown along, List.map_flatMap]
  refine List.flatMap_congr fun label member => ?_
  dsimp only
  rw [← flatMap_sharedAmounts grown along member, List.map_flatMap, rowOf, List.flatMap_map]
  exact List.flatMap_congr (cell label member)

/-- Under the names of an edge stands what it carries. -/
theorem amount?_ofListed {edge : Edge} {amount : α} (member : (edge, amount) ∈ amounts) :
    (FlowTable.ofListed graph.labels amounts).amount? edge = some amount := by
  rw [← flatMap_ownAmounts grown along] at member
  obtain ⟨label, inside, own⟩ := List.mem_flatMap.mp member
  rw [← flatMap_sharedAmounts grown along inside] at own
  obtain ⟨neighbour, near, shared⟩ := List.mem_flatMap.mp own
  have edges := map_fst_sharedAmounts grown along inside near
  obtain ⟨stored, _, rfl⟩ := List.mem_map.mp (edges ▸ List.mem_map_of_mem (f := Prod.fst) shared)
  have row : ((FlowTable.ofListed graph.labels amounts).filter fun entry =>
      entry.1.same label).flatMap Prod.snd = rowOf graph amounts label := by
    rw [ofListed_eq grown along, List.filter_map]
    have only := filter_same grown.apart inside
    simp only [Function.comp_def, only, List.map_cons, List.map_nil, List.flatMap_cons,
      List.flatMap_nil, List.append_nil]
  have cell : lastUnder (rowOf graph amounts label) neighbour =
      some (cellOf amounts label neighbour) := by
    refine lastUnder_eq ?_ (List.mem_map_of_mem near)
    rw [rowOf, List.map_map]
    exact (List.map_id' (graph.neighbours label)).symm ▸ apart_distinct _
  have found : lastUnder (cellOf amounts label neighbour) stored.key = some amount := by
    refine lastUnder_eq ?_ (List.mem_map_of_mem shared)
    have keys : (cellOf amounts label neighbour).map Prod.fst =
        (graph.between label neighbour).map Edge.key := by
      rw [cellOf, List.map_map]
      have same := congrArg (List.map Edge.key) edges
      rwa [List.map_map, List.map_map] at same
    exact keys ▸ grown.apart_keys label neighbour
  calc (FlowTable.ofListed graph.labels amounts).amount? (stored.seen label neighbour)
      = (lastUnder (rowOf graph amounts label) neighbour).bind fun cell =>
          lastUnder cell stored.key := by rw [← row]; rfl
    _ = some amount := by rw [cell]; exact found

end ofListed

theorem tabulates_ofListed (grown : graph.Grown) {flows : List α}
    (long : graph.listed.length = flows.length) :
    (FlowTable.ofListed graph.labels (graph.listed.zip flows)).Tabulates graph flows := by
  have along : (graph.listed.zip flows).map Prod.fst = graph.listed := by
    rw [List.map_fst_zip (Nat.le_of_eq long)]
  exact {
    rows := FlowTable.map_fst_ofListed _ _
    entries := entries_ofListed grown along
    found := fun _ _ => amount?_ofListed grown along }

end MinCostFlow.Labelled
