import MinCostFlow.Proofs.Search.Termination
import MinCostFlow.Proofs.Walk.Simple

/-! # The walk behind every label

Each label stands for the walk over which it was given, even when labels nearer to the
source have improved since. As long as no closed walk in reach of the source costs less
than nothing, such a walk visits no node twice: a node that it met before had at most the
distance of the walk up to there, and would not have taken a larger one. So no way ever
grows to `n` arcs and the search does not fail.

The parent links of a node lead back along its walk wherever no label on the walk has
improved since. When the sink is first in the queue that is so for its whole walk, whatever
the signs of reduced costs: an improved node on it would wait, and the walks of two waiting
nodes only part after the last distance that is larger than both of theirs.
-/

namespace MinCostFlow

variable {n : Nat}

/-- The least room on a row of faces, and never more than the horizon. -/
def leastRoom (faces : List (Residual n)) : Int :=
  faces.foldr (fun face least => min face.room least) horizon

theorem leastRoom_snoc (front : List (Residual n)) (face : Residual n) :
    leastRoom (front ++ [face]) = min (leastRoom front) face.room := by
  induction front with
  | nil => exact min_comm _ _
  | cons first rest ih =>
      rw [List.cons_append, leastRoom, List.foldr_cons]
      change min first.room (leastRoom (rest ++ [face])) = min (min first.room (leastRoom rest)) face.room
      rw [ih, min_assoc]

theorem reducedWalkCost_snoc (potential : Potential) (front : List (Residual n)) (face : Residual n) :
    reducedWalkCost potential (front ++ [face]) =
      reducedWalkCost potential front + face.reducedCost potential := by
  rw [reducedWalkCost_append]
  simp [reducedWalkCost]

/-- A label that tells the truth about a walk. -/
structure Label.Describes (potential : Potential) (label : Label) (faces : List (Residual n)) : Prop where
  dist : label.dist = reducedWalkCost potential faces
  pathCost : label.pathCost = walkCost faces
  hops : label.hops = faces.length
  bottleneck : label.bottleneck = leastRoom faces

theorem Label.Describes.extend {potential : Potential} {label : Label} {faces : List (Residual n)}
    (describes : label.Describes potential faces) (face : Residual n) (link : Link) :
    (label.extend (label.dist + face.reducedCost potential) link face).Describes potential
      (faces ++ [face]) where
  dist := by rw [reducedWalkCost_snoc, ← describes.dist]; rfl
  pathCost := by
    rw [walkCost_append, ← describes.pathCost]
    simp [Label.extend, walkCost]
  hops := by rw [List.length_append, ← describes.hops]; rfl
  bottleneck := by rw [leastRoom_snoc, ← describes.bottleneck]; rfl

namespace Frontier

variable {net : Network n} {potential : Potential} {source : Fin n} {frontier next : Frontier n}
  {entry : Entry n} {rest : Queue n} {way : Fin n → List (Residual n)}

/-- No closed walk in reach of the source costs less than nothing. -/
def Harmless (net : Network n) (source : Fin n) : Prop :=
  ∀ u, Network.Reaches net.Usable source u → ¬ Network.NegativeCycleAt net.Usable u

theorem not_harmless_iff :
    ¬ Harmless net source ↔
      ∃ u, Network.Reaches net.Usable source u ∧ Network.NegativeCycleAt net.Usable u := by
  simp [Harmless]

/-- The walks behind the labels of a frontier. -/
structure Ways (net : Network n) (potential : Potential) (source : Fin n)
    (way : Fin n → List (Residual n)) (frontier : Frontier n) : Prop where
  walk : ∀ v, frontier.dist v < horizon → Walk net.Usable source (way v) v
  simple : ∀ v, frontier.dist v < horizon → (visits source (way v)).Nodup
  describes : ∀ v, frontier.dist v < horizon → (frontier.labels.entry v).Describes potential (way v)
  link : ∀ v, frontier.dist v < horizon → ∀ front face, way v = front ++ [face] →
    ∃ place, (frontier.labels.entry v).parent = some ⟨face.tail.val, place⟩ ∧
      (net.out face.tail)[place]? = some face
  /-- The nodes on a walk have improved since the walk met them, or they still have the
      walk up to there as their own. -/
  history : ∀ v, frontier.dist v < horizon → ∀ front rest x, way v = front ++ rest →
    Walk net.Usable source front x → reducedWalkCost potential front < horizon ∧
      frontier.dist x ≤ reducedWalkCost potential front ∧
      (frontier.dist x = reducedWalkCost potential front → way x = front)

/-- The walks after the head of a face was given the one by way of `entry`. -/
def detour (way : Fin n → List (Residual n)) (entry : Entry n) (face : Residual n) :
    Fin n → List (Residual n) :=
  Function.update way face.head (way entry.node ++ [face])

theorem detour_self {face : Residual n} :
    detour way entry face face.head = way entry.node ++ [face] :=
  Function.update_self _ _ _

theorem detour_of_ne {face : Residual n} {v : Fin n} (other : v ≠ face.head) :
    detour way entry face v = way v :=
  Function.update_of_ne other _ _

namespace Ways

theorem dist_eq (ways : Ways net potential source way frontier) {v : Fin n}
    (labelled : frontier.dist v < horizon) : frontier.dist v = reducedWalkCost potential (way v) :=
  (ways.describes v labelled).dist

/-- The head of a face that improves it does not lie on the walk to the tail. -/
theorem head_not_mem (ways : Ways net potential source way frontier)
    (harmless : Harmless net source) (labelled : frontier.dist entry.node < horizon)
    (current : frontier.dist entry.node = entry.dist) {face : Residual n} (usable : net.Usable face)
    (improves : Improves potential entry frontier face) :
    face.head ∉ visits source (way entry.node) := by
  intro visited
  have walk := ways.walk entry.node labelled
  obtain ⟨front, back, split, first⟩ := walk.mem_visits_iff.mp visited
  obtain ⟨_, known, _⟩ := ways.history entry.node labelled front back face.head split first
  obtain ⟨x, left, right⟩ := (split ▸ walk : Walk net.Usable source (front ++ back) entry.node).split
  obtain rfl := first.end_unique left
  have loop : Walk net.Usable face.head (back ++ [face]) face.head :=
    right.snoc improves.tail usable
  refine harmless face.head ⟨front, first⟩ ⟨back ++ [face], loop, ?_⟩
  have cheaper := improves.cheaper
  rw [offer, ← current, ways.dist_eq labelled, split, reducedWalkCost_append] at cheaper
  rw [← loop.reducedWalkCost_closed potential, reducedWalkCost_snoc]
  omega

theorem nodup_snoc (ways : Ways net potential source way frontier)
    (harmless : Harmless net source) (labelled : frontier.dist entry.node < horizon)
    (current : frontier.dist entry.node = entry.dist) {face : Residual n} (usable : net.Usable face)
    (improves : Improves potential entry frontier face) :
    (visits source (way entry.node ++ [face])).Nodup :=
  nodup_visits_snoc (ways.simple entry.node labelled)
    (ways.head_not_mem harmless labelled current usable improves)

theorem offer_eq (ways : Ways net potential source way frontier)
    (labelled : frontier.dist entry.node < horizon) (current : frontier.dist entry.node = entry.dist)
    (face : Residual n) :
    offer potential entry face = reducedWalkCost potential (way entry.node ++ [face]) := by
  rw [reducedWalkCost_snoc, ← ways.dist_eq labelled, current, offer]

theorem history_relabel (ways : Ways net potential source way frontier)
    (harmless : Harmless net source) (labelled : frontier.dist entry.node < horizon)
    (current : frontier.dist entry.node = entry.dist) (ceiling : ∀ v, frontier.dist v ≤ horizon)
    {step : Residual n × Nat} (usable : net.Usable step.1)
    (improves : Improves potential entry frontier step.1) (v : Fin n)
    (reached : (relabel potential entry frontier step).dist v < horizon)
    (front rest : List (Residual n)) (x : Fin n)
    (split : detour way entry step.1 v = front ++ rest) (first : Walk net.Usable source front x) :
    reducedWalkCost potential front < horizon ∧
      (relabel potential entry frontier step).dist x ≤ reducedWalkCost potential front ∧
      ((relabel potential entry frontier step).dist x = reducedWalkCost potential front →
        detour way entry step.1 x = front) := by
  have walk := ways.walk entry.node labelled
  by_cases there : v = step.1.head
  · rw [there, detour_self] at split
    rcases List.eq_nil_or_concat' rest with rfl | ⟨middle, last, rfl⟩
    · rw [List.append_nil] at split
      obtain rfl : step.1.head = x := (walk.snoc improves.tail usable).end_unique (split ▸ first)
      rw [← split, ← ways.offer_eq labelled current, dist_relabel_self, detour_self]
      exact ⟨Int.lt_of_lt_of_le improves.cheaper (ceiling _), Int.le_refl _, fun _ => rfl⟩
    · rw [← List.append_assoc] at split
      obtain ⟨split, _⟩ := List.append_inj' split rfl
      have other : x ≠ step.1.head := by
        rintro rfl
        exact ways.head_not_mem harmless labelled current usable improves
          (walk.mem_visits_iff.mpr ⟨front, middle, split, first⟩)
      rw [dist_relabel_of_ne other, detour_of_ne other]
      exact ways.history entry.node labelled front middle x split first
  · rw [detour_of_ne there] at split
    rw [dist_relabel_of_ne there] at reached
    obtain ⟨bound, known, own⟩ := ways.history v reached front rest x split first
    by_cases here : x = step.1.head
    · have cheaper := improves.cheaper
      rw [here] at known ⊢
      rw [dist_relabel_self]
      exact ⟨bound, by omega, fun same => by omega⟩
    · rw [dist_relabel_of_ne here, detour_of_ne here]
      exact ⟨bound, known, own⟩

theorem relabel (ways : Ways net potential source way frontier) (harmless : Harmless net source)
    (labelled : frontier.dist entry.node < horizon) (current : frontier.dist entry.node = entry.dist)
    (named : entry.name = entry.node.val) (ceiling : ∀ v, frontier.dist v ≤ horizon)
    {step : Residual n × Nat} (found : (net.out entry.node)[step.2]? = some step.1)
    (usable : net.Usable step.1) (improves : Improves potential entry frontier step.1) :
    Ways net potential source (detour way entry step.1) (relabel potential entry frontier step) := by
  have tail := improves.tail
  have kept : ∀ {v}, v ≠ step.1.head → (Frontier.relabel potential entry frontier step).dist v < horizon →
      frontier.dist v < horizon := by
    intro v other reached
    rwa [dist_relabel_of_ne other] at reached
  refine ⟨?_, ?_, ?_, ?_,
    ways.history_relabel harmless labelled current ceiling usable improves⟩
  · intro v reached
    by_cases here : v = step.1.head
    · rw [here, detour_self]
      exact (ways.walk entry.node labelled).snoc tail usable
    · rw [detour_of_ne here]
      exact ways.walk v (kept here reached)
  · intro v reached
    by_cases here : v = step.1.head
    · rw [here, detour_self]
      exact ways.nodup_snoc harmless labelled current usable improves
    · rw [detour_of_ne here]
      exact ways.simple v (kept here reached)
  · intro v reached
    by_cases here : v = step.1.head
    · rw [here, detour_self, label_relabel_self, offered, offer, ← current]
      exact (ways.describes entry.node labelled).extend step.1 _
    · rw [detour_of_ne here, label_relabel_of_ne here]
      exact ways.describes v (kept here reached)
  · intro v reached front face last
    by_cases here : v = step.1.head
    · rw [here, detour_self] at last
      obtain ⟨_, same⟩ := List.append_inj' last rfl
      obtain rfl := (List.cons.inj same).1
      rw [here, label_relabel_self]
      refine ⟨step.2, ?_, tail ▸ found⟩
      rw [offered, Label.extend, named, tail]
    · rw [detour_of_ne here] at last
      rw [label_relabel_of_ne here]
      exact ways.link v (kept here reached) front face last

end Ways

/-- The walk to `y` shares every first part of the walk to `x` that costs more than both
    nodes have as distances. -/
def Follows (potential : Potential) (way : Fin n → List (Residual n)) (frontier : Frontier n)
    (x y : Fin n) : Prop :=
  ∀ front rest, way x = front ++ rest → frontier.dist x < reducedWalkCost potential front →
    frontier.dist y < reducedWalkCost potential front → ∃ more, way y = front ++ more

/-- Walks behind the labels, and how those of waiting nodes part. -/
structure Traced (net : Network n) (potential : Potential) (source : Fin n)
    (way : Fin n → List (Residual n)) (frontier : Frontier n) : Prop extends
    Ways net potential source way frontier where
  follows : ∀ x y, frontier.Waits x → frontier.Waits y → Follows potential way frontier x y

/-- Walks behind the labels while the node of `entry` is looked at. -/
structure Tracing (net : Network n) (potential : Potential) (source : Fin n) (entry : Entry n)
    (way : Fin n → List (Residual n)) (frontier : Frontier n) : Prop extends
    Ways net potential source way frontier where
  ceiling : ∀ v, frontier.dist v ≤ horizon
  current : frontier.dist entry.node = entry.dist
  near : entry.dist < horizon
  onward : ∀ x, frontier.Waits x → Follows potential way frontier x entry.node
  back : ∀ x, frontier.Waits x → Follows potential way frontier entry.node x
  follows : ∀ x y, frontier.Waits x → frontier.Waits y → Follows potential way frontier x y
  /-- What waits is no nearer than the node itself, or was just reached from it. -/
  later : ∀ x, frontier.Waits x → entry.dist ≤ frontier.dist x ∨
    ∃ face, way x = way entry.node ++ [face]

namespace Tracing

theorem labelled (tracing : Tracing net potential source entry way frontier) :
    frontier.dist entry.node < horizon :=
  tracing.current ▸ tracing.near

theorem first_part {walk front rest : List (Residual n)} {face : Residual n} {cost : Int}
    (whole : cost = reducedWalkCost potential (walk ++ [face])) (split : walk ++ [face] = front ++ rest)
    (dearer : cost < reducedWalkCost potential front) : ∃ more, walk = front ++ more := by
  rcases List.eq_nil_or_concat' rest with rfl | ⟨middle, last, rfl⟩
  · rw [List.append_nil] at split
    rw [whole, split] at dearer
    exact absurd dearer (Int.lt_irrefl _)
  · rw [← List.append_assoc] at split
    exact ⟨middle, (List.append_inj' split rfl).1⟩

/-- A dear first part of the walk to a node that waits lies on the walk to the node of `entry`. -/
theorem first_part_of_waits (tracing : Tracing net potential source entry way frontier) {x : Fin n}
    {front rest : List (Residual n)} (waits : frontier.Waits x) (split : way x = front ++ rest)
    (dearer : frontier.dist x < reducedWalkCost potential front) :
    ∃ more, way entry.node = front ++ more := by
  have current := tracing.current
  rcases tracing.later x waits with farther | ⟨face, just⟩
  · exact tracing.onward x waits front rest split dearer (by omega)
  · by_cases labelled : frontier.dist x < horizon
    · have whole : frontier.dist x = reducedWalkCost potential (way entry.node ++ [face]) := by
        rw [tracing.dist_eq labelled, just]
      exact first_part whole (just ▸ split) dearer
    · have near := tracing.near
      exact tracing.onward x waits front rest split dearer (by omega)

/-- A first part of the walk to the node of `entry` that is dear for a node that waits lies on
    the walk to that node. -/
theorem first_part_to_waits (tracing : Tracing net potential source entry way frontier) {x : Fin n}
    {front rest : List (Residual n)} (waits : frontier.Waits x)
    (split : way entry.node = front ++ rest)
    (dearer : frontier.dist x < reducedWalkCost potential front) : ∃ more, way x = front ++ more := by
  rcases tracing.later x waits with farther | ⟨face, just⟩
  · have current := tracing.current
    exact tracing.back x waits front rest split (by omega) dearer
  · exact ⟨rest ++ [face], by rw [just, split, List.append_assoc]⟩

theorem relabel (tracing : Tracing net potential source entry way frontier)
    (harmless : Harmless net source) (named : entry.name = entry.node.val)
    {step : Residual n × Nat} (found : (net.out entry.node)[step.2]? = some step.1)
    (usable : net.Usable step.1) (improves : Improves potential entry frontier step.1) :
    Tracing net potential source entry (detour way entry step.1)
      (relabel potential entry frontier step) := by
  have ways := tracing.toWays.relabel harmless tracing.labelled tracing.current named tracing.ceiling
    found usable improves
  have apart : entry.node ≠ step.1.head := by
    intro same
    apply tracing.head_not_mem harmless tracing.labelled tracing.current usable improves
    exact same ▸ (tracing.walk entry.node tracing.labelled).end_mem_visits
  have whole : (Frontier.relabel potential entry frontier step).dist step.1.head =
      reducedWalkCost potential (way entry.node ++ [step.1]) :=
    dist_relabel_self.trans (tracing.offer_eq tracing.labelled tracing.current step.1)
  refine ⟨ways, ?_, ?_, tracing.near, ?_, ?_, ?_, ?_⟩
  · intro v
    exact Int.le_trans (dist_relabel_le improves v) (tracing.ceiling v)
  · rw [dist_relabel_of_ne apart]
    exact tracing.current
  · intro x waits front rest split dearer _
    rw [detour_of_ne apart]
    by_cases here : x = step.1.head
    · rw [here, detour_self] at split
      rw [here] at dearer
      exact first_part whole split dearer
    · rw [detour_of_ne here] at split
      rw [dist_relabel_of_ne here] at dearer
      exact tracing.first_part_of_waits ((waits_relabel_iff here).mp waits) split dearer
  · intro x waits front rest split _ dearer
    rw [detour_of_ne apart] at split
    by_cases here : x = step.1.head
    · rw [here, detour_self, split, List.append_assoc]
      exact ⟨_, rfl⟩
    · rw [dist_relabel_of_ne here] at dearer
      rw [detour_of_ne here]
      exact tracing.first_part_to_waits ((waits_relabel_iff here).mp waits) split dearer
  · intro x y waits awaits front rest split dearer bound
    by_cases here : x = step.1.head
    · rw [here, detour_self] at split
      rw [here] at dearer
      obtain ⟨more, split⟩ := first_part whole split dearer
      by_cases there : y = step.1.head
      · rw [there, detour_self, split, List.append_assoc]
        exact ⟨_, rfl⟩
      · rw [dist_relabel_of_ne there] at bound
        rw [detour_of_ne there]
        exact tracing.first_part_to_waits ((waits_relabel_iff there).mp awaits) split bound
    · rw [detour_of_ne here] at split
      rw [dist_relabel_of_ne here] at dearer
      have waits := (waits_relabel_iff here).mp waits
      by_cases there : y = step.1.head
      · obtain ⟨more, split⟩ := tracing.first_part_of_waits waits split dearer
        rw [there, detour_self, split, List.append_assoc]
        exact ⟨_, rfl⟩
      · rw [dist_relabel_of_ne there] at bound
        rw [detour_of_ne there]
        have awaits := (waits_relabel_iff there).mp awaits
        exact tracing.follows x y waits awaits front rest split dearer bound
  · intro x waits
    rw [detour_of_ne apart]
    by_cases here : x = step.1.head
    · rw [here, detour_self]
      exact .inr ⟨step.1, rfl⟩
    · rw [dist_relabel_of_ne here, detour_of_ne here]
      exact tracing.later x ((waits_relabel_iff here).mp waits)

end Tracing

end Frontier

end MinCostFlow
