import Mathlib.Data.List.Forall2
import MinCostFlow.Proofs.Flow.Push
import MinCostFlow.Proofs.Search.Certificate
import MinCostFlow.Sample.Networks

/-! # The route that a search leaves behind

As long as no closed walk in reach of the source costs less than nothing, a search ends
without a fault. If it has reached the sink, its trail names the faces of a walk from
source to sink that visits no node twice, and the label of the sink tells the truth about
that walk. All of this holds for any prices and for both ways of ending a search.
-/

namespace MinCostFlow

variable {n : Nat}

theorem Walk.eq_nil_of_closed {allowed : Residual n → Prop} {u : Fin n} {faces : List (Residual n)}
    (walk : Walk allowed u faces u) (simple : (visits u faces).Nodup) : faces = [] := by
  cases faces with
  | nil => rfl
  | cons face rest =>
      obtain ⟨_, _, walk⟩ := Walk.cons_iff.mp walk
      exact absurd walk.end_mem_visits (List.nodup_cons.mp simple).1

namespace Frontier

variable {net : Network n} {potential : Potential} {goal : Option Int} {source sink : Fin n}
  {frontier next : Frontier n} {entry : Entry n} {rest : Queue n} {way : Fin n → List (Residual n)}

theorem waits_of_mem (queue : frontier.queue = entry :: rest) {v : Fin n}
    (waits : ({ frontier with queue := rest } : Frontier n).Waits v) : frontier.Waits v := by
  obtain ⟨waiting, member, same⟩ := waits
  refine ⟨waiting, ?_, same⟩
  rw [queue]
  exact List.mem_cons_of_mem _ member

theorem dist_le_of_waits (ordered : Queue.Ordered frontier.queue) (queue : frontier.queue = entry :: rest)
    {v : Fin n} (waits : frontier.Waits v) : entry.dist ≤ frontier.dist v := by
  obtain ⟨waiting, member, rfl, same⟩ := waits
  rw [queue] at member ordered
  rcases List.mem_cons.mp member with rfl | member
  · exact Int.le_of_eq same
  · have before := (List.pairwise_cons.mp ordered).1 waiting member
    unfold Entry.Before at before
    omega

theorem Traced.pop (traced : Traced net potential source way frontier)
    (queue : frontier.queue = entry :: rest) :
    Traced net potential source way { frontier with queue := rest } where
  toWays := { traced.toWays with }
  follows x y waits awaits :=
    traced.follows x y (waits_of_mem queue waits) (waits_of_mem queue awaits)

theorem Traced.dist_eq_of_first_part (traced : Traced net potential source way frontier) {x : Fin n}
    {front more : List (Residual n)} (walk : Walk net.Usable source front x)
    (labelled : frontier.dist x < horizon) (own : way x = front ++ more) :
    frontier.dist x = reducedWalkCost potential front := by
  have whole := traced.walk x labelled
  have simple := traced.simple x labelled
  rw [own] at whole simple
  obtain ⟨y, left, right⟩ := whole.split
  obtain rfl := walk.end_unique left
  have none_left := right.eq_nil_of_closed (walk.nodup_visits_right simple)
  rw [traced.dist_eq labelled, own, none_left, List.append_nil]

theorem Traced.begin (tidy : Tidy net potential goal source (fun _ => False) frontier)
    (traced : Traced net potential source way frontier) (queue : frontier.queue = entry :: rest)
    (current : frontier.dist entry.node = entry.dist) :
    Tracing net potential source entry way { frontier with queue := rest } where
  toWays := { traced.toWays with }
  ceiling := tidy.ceiling
  current := current
  near := tidy.near entry (by rw [queue]; exact List.mem_cons_self)
  onward x waits := by
    refine traced.follows x entry.node (waits_of_mem queue waits) ⟨entry, ?_, rfl, current.symm⟩
    rw [queue]
    exact List.mem_cons_self
  back x waits := by
    refine traced.follows entry.node x ⟨entry, ?_, rfl, current.symm⟩ (waits_of_mem queue waits)
    rw [queue]
    exact List.mem_cons_self
  follows x y waits awaits :=
    traced.follows x y (waits_of_mem queue waits) (waits_of_mem queue awaits)
  later x waits := .inl (dist_le_of_waits tidy.ordered queue (waits_of_mem queue waits))

/-- Where no closed walk in reach costs less than nothing, a node can be looked at without a
    fault, and there are walks behind all labels again. -/
theorem settle_traced (size : potential.size = n) (harmless : Harmless net source)
    (tidy : Tidy net potential goal source (fun _ => False) frontier)
    (traced : Traced net potential source way frontier) (queue : frontier.queue = entry :: rest)
    (current : frontier.dist entry.node = entry.dist) :
    ∃ next way, settle net potential entry { frontier with queue := rest } = .ok next ∧
      Traced net potential source way next := by
  have named : entry.name = entry.node.val := tidy.named entry (by rw [queue]; exact List.mem_cons_self)
  have scan := settle_scan net _ (motive := fun last => ∃ way, Tracing net potential source entry way last)
    size named
    (fun last step found holds usable improves _ => by
      obtain ⟨way, tracing⟩ := holds
      exact ⟨_, tracing.relabel harmless named found usable improves⟩)
    ⟨way, traced.begin tidy queue current⟩
  generalize settle net potential entry { frontier with queue := rest } = ended at scan
  cases scan with
  | done holds _ _ =>
      obtain ⟨way, tracing⟩ := holds
      exact ⟨_, way, rfl, { tracing.toWays with follows := tracing.follows }⟩
  | long relevant holds improves long =>
      obtain ⟨way, tracing⟩ := holds
      have bound := length_lt_of_nodup (tracing.nodup_snoc harmless tracing.labelled tracing.current
        relevant.1 improves)
      have hops : _ = (way entry.node).length := (tracing.describes entry.node tracing.labelled).hops
      rw [Frontier.hops, hops] at long
      rw [List.length_append, List.length_singleton] at bound
      omega

theorem traced_start (net : Network n) (potential : Potential) (source : Fin n) :
    Traced net potential source (fun _ => []) (start source source.val) := by
  have only : ∀ v, (start source (source.val : Int)).dist v < horizon → v = source := by
    intro v near
    by_contra other
    rw [dist, start, PerNode.entry_put_of_ne _ (Ne.symm other), PerNode.entry_all] at near
    exact absurd near (Int.lt_irrefl _)
  have label : (start source (source.val : Int)).labels.entry source = Label.source :=
    PerNode.entry_put_self _ _ _
  refine ⟨⟨?_, ?_, ?_, ?_, ?_⟩, ?_⟩
  · intro v near
    rw [only v near]
    exact .nil source
  · intro v _
    exact List.nodup_singleton _
  · intro v near
    rw [only v near, label]
    exact ⟨rfl, rfl, rfl, rfl⟩
  · intro v _ front face last
    simp at last
  · intro v _ front rest x split first
    obtain ⟨rfl, rfl⟩ := List.append_eq_nil_iff.mp split.symm
    obtain rfl := Walk.nil_iff.mp first
    have dist : (start source (source.val : Int)).dist source = 0 := by
      rw [Frontier.dist, label]
      rfl
    rw [dist]
    exact ⟨(by decide : (0 : Int) < horizon), Int.le_refl 0, fun _ => rfl⟩
  · intro x y _ _ front rest split dearer
    obtain ⟨rfl, rfl⟩ := List.append_eq_nil_iff.mp split.symm
    intro _
    exact ⟨[], rfl⟩

/-- A frontier at the end of a search, with the walks behind its labels. -/
structure Finished (net : Network n) (potential : Potential) (goal : Option Int) (source : Fin n)
    (way : Fin n → List (Residual n)) (stopped : Bool) (frontier : Frontier n) : Prop where
  tidy : Tidy net potential goal source (fun _ => False) frontier
  traced : Traced net potential source way frontier
  drained : stopped = false → ∀ v, ¬ frontier.Waits v
  stops : stopped = true → ∃ t, goal = some (t.val : Int) ∧ frontier.Waits t ∧
    ∀ v, frontier.Waits v → frontier.dist t ≤ frontier.dist v

theorem drain_finished (size : potential.size = n) (harmless : Harmless net source) (goal : Option Int) :
    ∃ last stopped way,
      drain net potential goal (net.searchBudget potential) (start source source.val) =
        .ok (last, stopped) ∧ Finished net potential goal source way stopped last := by
  have ending := drain_tidy net goal source
    (motive := fun last => ∃ way, Traced net potential source way last) size
    ⟨_, traced_start net potential source⟩
    (fun frontier entry rest _ holds queue _ => by
      obtain ⟨way, traced⟩ := holds
      exact ⟨way, traced.pop queue⟩)
    (fun frontier entry rest next tidy holds queue current settled => by
      obtain ⟨way, traced⟩ := holds
      obtain ⟨other, way, again, traced⟩ := settle_traced size harmless tidy traced queue current
      rw [settled] at again
      obtain rfl := Except.ok.inj again
      exact ⟨way, traced⟩)
  generalize drain net potential goal (net.searchBudget potential) (start source source.val) = ended
    at ending
  cases ending with
  | drained holds queue =>
      obtain ⟨tidy, way, traced⟩ := holds
      exact ⟨_, false, way, rfl, tidy, traced, fun _ => not_waits_of_empty queue, by simp⟩
  | stopped holds queue current first =>
      rename_i last entry rest
      obtain ⟨tidy, way, traced⟩ := holds
      have member : entry ∈ last.queue := by rw [queue]; exact List.mem_cons_self
      refine ⟨_, true, way, rfl, tidy, traced, by simp, fun _ => ⟨entry.node, ?_, ?_, ?_⟩⟩
      · rw [first, tidy.named entry member]
      · exact ⟨entry, member, rfl, current.symm⟩
      · intro v waits
        rw [current]
        exact dist_le_of_waits tidy.ordered queue waits
  | failed holds queue current settled =>
      obtain ⟨tidy, way, traced⟩ := holds
      obtain ⟨next, _, again, _⟩ := settle_traced size harmless tidy traced queue current
      rw [settled] at again
      simp at again

namespace Finished

variable {stopped : Bool}

theorem dist_ne_horizon_iff (finished : Finished net potential goal source way stopped frontier)
    (v : Fin n) : frontier.dist v ≠ horizon ↔ frontier.dist v < horizon := by
  have ceiling := finished.tidy.ceiling v
  omega

theorem stopped_iff (finished : Finished net potential (some (sink.val : Int)) source way stopped frontier) :
    frontier.dist sink < horizon ↔ stopped = true := by
  constructor
  · intro labelled
    have waits := finished.tidy.goal_waits sink rfl labelled
    cases stopped with
    | true => rfl
    | false => exact absurd waits (finished.drained rfl sink)
  · intro stop
    obtain ⟨t, aim, waits, _⟩ := finished.stops stop
    obtain rfl : t = sink := by
      have same := Option.some.inj aim
      exact Fin.ext (by omega)
    obtain ⟨waiting, member, _, same⟩ := waits
    rw [← same]
    exact finished.tidy.near waiting member

theorem first_of_waits (stopAtSink : Bool)
    (finished : Finished net potential (if stopAtSink then some (sink.val : Int) else none) source way
      stopped frontier) {v : Fin n} (waits : frontier.Waits v) :
    frontier.Waits sink ∧ frontier.dist sink ≤ frontier.dist v := by
  cases stopped with
  | false => exact absurd waits (finished.drained rfl v)
  | true =>
      obtain ⟨t, aim, first, least⟩ := finished.stops rfl
      cases stopAtSink with
      | false => simp at aim
      | true =>
          obtain rfl : t = sink := by
            have same := Option.some.inj aim
            exact Fin.ext (by omega)
          exact ⟨first, least v waits⟩

/-- No node on the walk to the sink has improved since, so each has the walk up to there as
    its own. -/
theorem own_parts (finished : Finished net potential goal source way stopped frontier)
    (labelled : frontier.dist sink < horizon)
    (first : ∀ v, frontier.Waits v → frontier.Waits sink ∧ frontier.dist sink ≤ frontier.dist v)
    (rest front : List (Residual n)) (x : Fin n) (split : way sink = front ++ rest)
    (walk : Walk net.Usable source front x) :
    frontier.dist x < horizon ∧ frontier.dist x = reducedWalkCost potential front ∧ way x = front := by
  have traced := finished.traced
  have whole := traced.walk sink labelled
  obtain ⟨bound, known, own⟩ := traced.history sink labelled front rest x split walk
  suffices same : frontier.dist x = reducedWalkCost potential front from
    ⟨by omega, same, own same⟩
  -- from the sink back to the source: the face behind `front` is tight, so its tail is current
  induction rest generalizing front x with
  | nil =>
      rw [List.append_nil] at split
      obtain rfl := whole.end_unique (split ▸ walk)
      rw [traced.dist_eq labelled, split]
  | cons face rest ih =>
      obtain ⟨y, left, right⟩ :=
        (split ▸ whole : Walk net.Usable source (front ++ face :: rest) sink).split
      obtain rfl := walk.end_unique left
      obtain ⟨rfl, usable, _⟩ := Walk.cons_iff.mp right
      have longer := walk.snoc rfl usable
      have split' : way sink = (front ++ [face]) ++ rest := by
        rw [split, List.append_assoc]
        rfl
      obtain ⟨bound', known', own'⟩ := traced.history sink labelled _ rest _ split' longer
      have tight := ih (front ++ [face]) face.head split' longer bound' known' own'
      rw [reducedWalkCost_snoc] at tight
      by_contra improved
      have stale : frontier.dist face.tail < reducedWalkCost potential front := by omega
      cases finished.tidy.looked face.tail id (by omega) with
      | inl waits =>
          obtain ⟨waits_sink, least⟩ := first _ waits
          obtain ⟨more, shared⟩ := traced.follows sink face.tail waits_sink waits front _ split
            (by omega) stale
          exact improved (traced.dist_eq_of_first_part walk (by omega) shared)
      | inr done =>
          have offer := done face usable rfl
          omega

end Finished

theorem entry_column {α : Type} (labels : PerNode Label n) (field : Label → α) (v : Fin n) :
    Position.entry (labels.toArray.map field) (v.val : Int) = .ok (field (labels.entry v)) := by
  have bound : v.val < (labels.toArray.map field).size := by simp
  rw [Position.entry_natCast bound, Array.getElem_map]
  rfl

theorem back_source (frontier : Frontier n) (budget : Nat) (path : List ArcId) :
    Trail.back (frontier.labels.toArray.map Label.parentNode)
      (frontier.labels.toArray.map Label.parentPlace) source.val budget source.val path = .ok path := by
  unfold Trail.back
  exact if_pos rfl

theorem back_of_parent {u v : Fin n} {place : Nat}
    (parent : (frontier.labels.entry v).parent = some ⟨u.val, place⟩) (away : v ≠ source)
    (budget : Nat) (path : List ArcId) :
    Trail.back (frontier.labels.toArray.map Label.parentNode)
        (frontier.labels.toArray.map Label.parentPlace) source.val (budget + 1) v.val path =
      Trail.back (frontier.labels.toArray.map Label.parentNode)
        (frontier.labels.toArray.map Label.parentPlace) source.val budget u.val
          (⟨u.val, place⟩ :: path) := by
  rw [Trail.back, if_neg fun same => away (Fin.ext (by omega)), entry_column,
    entry_column, Label.parentNode, Label.parentPlace, parent]
  rfl

/-- Where each node of a walk has the walk up to there as its own, the links lead back along
    the walk. -/
theorem trail_back (ways : Ways net potential source way frontier) (faces : List (Residual n))
    (v : Fin n) (budget : Nat) (path : List ArcId) (walk : Walk net.Usable source faces v)
    (simple : (visits source faces).Nodup) (enough : faces.length ≤ budget)
    (own : ∀ front rest x, faces = front ++ rest → Walk net.Usable source front x →
      frontier.dist x < horizon ∧ way x = front) :
    ∃ ids, Trail.back (frontier.labels.toArray.map Label.parentNode)
        (frontier.labels.toArray.map Label.parentPlace) source.val budget v.val path =
          .ok (ids ++ path) ∧ List.Forall₂ net.Names ids faces := by
  induction faces using List.reverseRecOn generalizing v budget path with
  | nil =>
      obtain rfl := Walk.nil_iff.mp walk
      exact ⟨[], back_source _ _ _, .nil⟩
  | append_singleton front face ih =>
      obtain ⟨labelled, same⟩ := own (front ++ [face]) [] v (List.append_nil _).symm walk
      obtain ⟨place, parent, found⟩ := ways.link v labelled front face same
      obtain ⟨first, usable, rfl⟩ := walk.of_snoc
      have away : face.head ≠ source := by
        intro back
        rw [visits, List.map_append, List.map_singleton, back] at simple
        simp at simple
      rw [List.length_append, List.length_singleton] at enough
      obtain ⟨ids, trail, named⟩ := ih face.tail (budget - 1) (⟨face.tail.val, place⟩ :: path) first
        (nodup_visits_left simple) (by omega)
        (fun start rest x split walk => own start (rest ++ [face]) x (by rw [split, List.append_assoc]) walk)
      refine ⟨ids ++ [⟨face.tail.val, place⟩], ?_, ?_⟩
      · obtain ⟨budget, rfl⟩ : ∃ less, budget = less + 1 := ⟨budget - 1, by omega⟩
        rw [back_of_parent parent away, List.append_assoc]
        exact trail
      · exact List.rel_append named (.cons ⟨rfl, place, rfl, found⟩ .nil)

end Frontier

/-- A walk from source to sink that the trail of a search names, and of which the label of
    the sink tells the truth. -/
structure Reach.Route (net : Network n) (potential : Potential) (source sink : Fin n)
    (reach : Reach n) (faces : List (Residual n)) : Prop where
  trail : ∃ ids, reach.trail source.val sink.val = .ok ids ∧ List.Forall₂ net.Names ids faces
  walk : Walk net.Usable source faces sink
  simple : (visits source faces).Nodup
  describes : (reach.labels.entry sink).Describes potential faces

namespace Network

open Frontier

variable {net : Network n} {potential : Potential} {source sink : Fin n}

/-- What a search answers, by the frontier that it ends with. -/
def reachOf (sink : Fin n) (stopped : Bool) (frontier : Frontier n) : Reach n where
  labels := frontier.labels
  reachedSink := frontier.dist sink ≠ horizon
  stoppedAtSink := stopped

theorem search_eq (net : Network n) (potential : Potential) (source sink : Fin n) (stopAtSink : Bool) :
    net.search source.val sink.val potential stopAtSink =
      (drain net potential (if stopAtSink then some (sink.val : Int) else none)
        (net.searchBudget potential) (start source source.val)).map
          fun ended => reachOf sink ended.2 ended.1 := by
  rw [search, Position.slot_natCast, Position.slot_natCast]
  simp only [bind, Except.bind, Except.map, pure, Except.pure]
  cases drain net potential (if stopAtSink then some (sink.val : Int) else none)
    (net.searchBudget potential) (start source source.val) <;> rfl

/-- Where no closed walk in reach costs less than nothing, a search does not fail, and there are
    walks behind all labels that it leaves. -/
theorem search_finished (size : potential.size = n) (harmless : Harmless net source) (sink : Fin n)
    (stopAtSink : Bool) :
    ∃ last stopped way,
      net.search source.val sink.val potential stopAtSink = .ok (reachOf sink stopped last) ∧
      Finished net potential (if stopAtSink then some (sink.val : Int) else none) source way stopped
        last := by
  obtain ⟨last, stopped, way, drained, finished⟩ := drain_finished size harmless
    (if stopAtSink then some (sink.val : Int) else none)
  refine ⟨last, stopped, way, ?_, finished⟩
  rw [search_eq, drained]
  rfl

theorem trail_eq {frontier : Frontier n} (stopped : Bool) (labelled : frontier.dist sink < horizon) :
    (reachOf sink stopped frontier).trail source.val sink.val =
      Trail.back (frontier.labels.toArray.map Label.parentNode)
        (frontier.labels.toArray.map Label.parentPlace) source.val (n + 1) sink.val [] := by
  have reached : ¬ (frontier.labels.entry sink).dist = horizon := Int.ne_of_lt labelled
  rw [Reach.trail, Trail.between, Reach.dist, Reach.column, Reach.parentNode, Reach.column,
    Reach.parentPlace, Reach.column, reachOf, entry_column]
  simp only [bind, Except.bind, if_neg reached, Array.size_map, Vector.size_toArray]

theorem route_of_finished {way : Fin n → List (Residual n)} {stopAtSink stopped : Bool}
    {frontier : Frontier n}
    (finished : Finished net potential (if stopAtSink then some (sink.val : Int) else none) source way
      stopped frontier) (labelled : frontier.dist sink < horizon) :
    (reachOf sink stopped frontier).Route net potential source sink (way sink) := by
  have ways := finished.traced.toWays
  have walk := ways.walk sink labelled
  have simple := ways.simple sink labelled
  refine ⟨?_, walk, simple, ways.describes sink labelled⟩
  have budget : (way sink).length ≤ n + 1 := by
    have bound := length_lt_of_nodup simple
    omega
  obtain ⟨ids, trail, named⟩ := trail_back ways (way sink) sink (n + 1) [] walk simple budget
    fun front rest x split walk => by
      obtain ⟨near, _, own⟩ :=
        finished.own_parts labelled (fun v => finished.first_of_waits stopAtSink) rest front x split walk
      exact ⟨near, own⟩
  exact ⟨ids, (trail_eq stopped labelled).trans (trail.trans (by rw [List.append_nil])), named⟩

theorem one_le_leastRoom {faces : List (Residual n)} (usable : ∀ face ∈ faces, 0 < face.room) :
    1 ≤ leastRoom faces := by
  induction faces with
  | nil => exact (by decide : (1 : Int) ≤ horizon)
  | cons face rest ih =>
      have first := usable face List.mem_cons_self
      have others := ih fun other member => usable other (List.mem_cons_of_mem _ member)
      exact le_min first others

/-- Over residual arcs without a closed walk of negative cost a search never fails, whatever
    the prices. If it reaches the sink, its trail is a simple path of arcs with room, and the
    label of the sink holds the reduced cost, the cost and the least room of that path. A
    search that may stop at the sink has reached it exactly when it stopped. -/
theorem search_certifies_path (net : Network n) (potential : Potential) (size : potential.size = n)
    (source sink : Fin n) (stopAtSink : Bool) (harmless : ∀ u, ¬ NegativeCycleAt net.Usable u) :
    ∃ reach, net.search source.val sink.val potential stopAtSink = .ok reach ∧
      (reach.reachedSink = true → ∃ ids faces,
        reach.trail source.val sink.val = .ok ids ∧ List.Forall₂ net.Names ids faces ∧
        Walk net.Usable source faces sink ∧ (visits source faces).Nodup ∧
        reducedWalkCost potential faces = (reach.labels.entry sink).dist ∧
        walkCost faces = (reach.labels.entry sink).pathCost ∧
        leastRoom faces = (reach.labels.entry sink).bottleneck ∧ 1 ≤ leastRoom faces) ∧
      (stopAtSink = true → (reach.reachedSink = true ↔ reach.stoppedAtSink = true)) := by
  have inReach : Harmless net source := fun u _ => harmless u
  obtain ⟨last, stopped, way, drained, finished⟩ := drain_finished size inReach
    (if stopAtSink then some (sink.val : Int) else none)
  refine ⟨reachOf sink stopped last, ?_, ?_, ?_⟩
  · rw [search_eq, drained]
    rfl
  · intro reached
    have labelled : last.dist sink < horizon :=
      (finished.dist_ne_horizon_iff sink).mp (of_decide_eq_true reached)
    have route := route_of_finished finished labelled
    obtain ⟨ids, trail, named⟩ := route.trail
    exact ⟨ids, way sink, trail, named, route.walk, route.simple, route.describes.dist.symm,
      route.describes.pathCost.symm, route.describes.bottleneck.symm,
      one_le_leastRoom fun face member => (route.walk.allowed_of_mem member).2⟩
  · intro stop
    subst stop
    change decide (last.dist sink ≠ horizon) = true ↔ stopped = true
    rw [decide_eq_true_iff, finished.dist_ne_horizon_iff]
    exact finished.stopped_iff

theorem eq_of_map_ok {α β : Type} {answer : Except Fault α} {item : α} {read : α → β} {value : β}
    (found : answer = .ok item) (ran : answer.map read = .ok value) : read item = value := by
  rw [found] at ran
  exact Except.ok.inj ran

theorem not_negativeCycleAt_halfUsed (u : Fin 3) : ¬ NegativeCycleAt halfUsed.Usable u := by
  apply not_negativeCycleAt #[0, 4, 1]
  intro face usable _
  have fair : ∀ face ∈ halfUsed.residuals, 0 < face.room → 0 ≤ face.reducedCost #[0, 4, 1] := by
    decide
  exact fair face usable.1 usable.2

theorem search_certifies_path_halfUsed :
    ∃ reach, halfUsed.search 0 2 #[0, 0, 0] true = .ok reach ∧ reach.reachedSink = true ∧
      (∃ ids faces,
        reach.trail 0 2 = .ok ids ∧ List.Forall₂ halfUsed.Names ids faces ∧
        Walk halfUsed.Usable 0 faces 2 ∧ (visits 0 faces).Nodup ∧
        reducedWalkCost #[0, 0, 0] faces = (reach.labels.entry 2).dist ∧
        walkCost faces = (reach.labels.entry 2).pathCost ∧
        leastRoom faces = (reach.labels.entry 2).bottleneck ∧ 1 ≤ leastRoom faces) ∧
      (reach.reachedSink = true ↔ reach.stoppedAtSink = true) := by
  obtain ⟨reach, found, certified, stops⟩ :=
    search_certifies_path halfUsed #[0, 0, 0] rfl 0 2 true not_negativeCycleAt_halfUsed
  have ran : (halfUsed.search 0 2 #[0, 0, 0] true).map Reach.reachedSink = .ok true := by
    decide +kernel
  have reached : reach.reachedSink = true := eq_of_map_ok found ran
  exact ⟨reach, found, reached, certified reached, stops rfl⟩

end Network

end MinCostFlow
