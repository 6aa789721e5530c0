import MinCostFlow.Proofs.Search.Drained
import MinCostFlow.Proofs.Search.Route

/-! # What parent links are worth in any network

Around a closed walk of negative cost a label may improve after others were given on the strength
of it. Then the links of a search no longer lead back along the way that the label of the sink
tells of. But each of them still names a usable face that leads to its node from a node with a
distance. So whoever follows the links back from the sink either never arrives at the source, or
has come along a walk that visits no node twice.
-/

namespace MinCostFlow

variable {n : Nat}

namespace Frontier

variable {net : Network n} {potential : Potential} {goal : Option Int} {source : Fin n}
  {frontier next : Frontier n} {entry : Entry n} {rest : Queue n}

def LinksBy (net : Network n) (frontier : Frontier n) (face : Residual n) : Prop :=
  ∃ place : Nat, (frontier.labels.entry face.head).parent = some ⟨face.tail.val, place⟩ ∧
    (net.out face.tail)[place]? = some face

theorem LinksBy.unique {left right : Residual n} (first : LinksBy net frontier left)
    (second : LinksBy net frontier right) (heads : left.head = right.head) : left = right := by
  obtain ⟨place, parent, found⟩ := first
  obtain ⟨other, again, refound⟩ := second
  rw [heads, again] at parent
  simp only [Option.some.injEq, Link.mk.injEq, Int.natCast_inj] at parent
  obtain ⟨tails, rfl⟩ := parent
  rw [Fin.ext tails, found] at refound
  exact Option.some.inj refound

/-- Every node with a distance, the source apart, is linked by a usable face to a node that has
    a distance too. -/
def Linked (net : Network n) (source : Fin n) (frontier : Frontier n) : Prop :=
  ∀ v, v ≠ source → frontier.dist v < horizon →
    ∃ face, face.head = v ∧ net.Usable face ∧ LinksBy net frontier face ∧
      frontier.dist face.tail < horizon

theorem Linked.relabel (linked : Linked net source frontier)
    (labelled : frontier.dist entry.node < horizon) (named : entry.name = entry.node.val)
    {step : Residual n × Nat} (found : (net.out entry.node)[step.2]? = some step.1)
    (usable : net.Usable step.1) (improves : Improves potential entry frontier step.1) :
    Linked net source (relabel potential entry frontier step) := by
  have falls := dist_relabel_le improves
  intro v other near
  by_cases here : v = step.1.head
  · refine ⟨step.1, here.symm, usable, ⟨step.2, ?_, improves.tail ▸ found⟩, ?_⟩
    · rw [label_relabel_self, offered, Label.extend, named, improves.tail]
    · exact Int.lt_of_le_of_lt (falls step.1.tail) (improves.tail ▸ labelled)
  · rw [dist_relabel_of_ne here] at near
    obtain ⟨face, rfl, open_, ⟨place, parent, stands⟩, before⟩ := linked v other near
    refine ⟨face, rfl, open_, ⟨place, ?_, stands⟩, Int.lt_of_le_of_lt (falls face.tail) before⟩
    rw [label_relabel_of_ne here]
    exact parent

theorem settle_linked (size : potential.size = n) (linked : Linked net source frontier)
    (labelled : frontier.dist entry.node < horizon) (named : entry.name = entry.node.val)
    (settled : settle net potential entry frontier = .ok next) : Linked net source next := by
  have scan := settle_scan net frontier
    (motive := fun last => Linked net source last ∧ last.dist entry.node < horizon) size named
    (fun last step found holds usable improves _ =>
      ⟨holds.1.relabel holds.2 named found usable improves,
        Int.lt_of_le_of_lt (dist_relabel_le improves _) holds.2⟩)
    ⟨linked, labelled⟩
  rw [settled] at scan
  cases scan with
  | done holds _ _ => exact holds.1

theorem linked_start (net : Network n) (source : Fin n) :
    Linked net source (start source source.val) := by
  intro v other near
  rw [dist, start, PerNode.entry_put_of_ne _ other.symm, PerNode.entry_all] at near
  exact absurd near (Int.lt_irrefl _)

/-- In any network and with any prices, a search ends with links in order, or fails because a way
    has grown too long. -/
theorem drain_linked (net : Network n) (goal : Option Int) (source : Fin n)
    (size : potential.size = n) :
    (∃ last stopped,
      drain net potential goal (net.searchBudget potential) (start source source.val) =
        .ok (last, stopped) ∧ Linked net source last ∧ ∀ v, last.dist v ≤ horizon) ∨
    drain net potential goal (net.searchBudget potential) (start source source.val) =
      .error (.state .endlessPath) := by
  have ending := drain_tidy net goal source (motive := Linked net source) size (linked_start net source)
    (fun _ _ _ _ linked _ _ => linked)
    (fun frontier entry rest next tidy linked queue current settled => by
      have member : entry ∈ frontier.queue := by
        rw [queue]
        exact List.mem_cons_self
      have popped : Linked net source ({ frontier with queue := rest } : Frontier n) := linked
      have labelled : frontier.dist entry.node < horizon := current ▸ tidy.near entry member
      exact settle_linked size popped labelled (tidy.named entry member) settled)
  generalize drain net potential goal (net.searchBudget potential) (start source source.val) = ended
    at ending
  cases ending with
  | drained holds _ => exact .inl ⟨_, _, rfl, holds.2, holds.1.ceiling⟩
  | stopped holds _ _ _ => exact .inl ⟨_, _, rfl, holds.2, holds.1.ceiling⟩
  | failed holds queue _ failed =>
      right
      rw [eq_endlessPath_of_settle size (holds.1.named _ (by rw [queue]; exact List.mem_cons_self)) failed]

theorem back_cases (linked : Linked net source frontier) (budget : Nat) (v : Fin n)
    (path : List ArcId) (labelled : frontier.dist v < horizon) :
    (∃ ids faces,
      Trail.back (frontier.labels.toArray.map Label.parentNode)
        (frontier.labels.toArray.map Label.parentPlace) source.val budget v.val path =
          .ok (ids ++ path) ∧ List.Forall₂ net.Names ids faces ∧
      Walk (fun face => net.Usable face ∧ LinksBy net frontier face ∧ face.head ≠ source)
        source faces v) ∨
    Trail.back (frontier.labels.toArray.map Label.parentNode)
      (frontier.labels.toArray.map Label.parentPlace) source.val budget v.val path =
        .error .strayTrail := by
  induction budget generalizing v path with
  | zero =>
      by_cases arrived : v = source
      · subst arrived
        exact .inl ⟨[], [], back_source _ _ _, .nil, .nil v⟩
      · unfold Trail.back
        rw [if_neg fun same => arrived (Fin.ext (by omega))]
        exact .inr rfl
  | succ budget ih =>
      by_cases arrived : v = source
      · subst arrived
        exact .inl ⟨[], [], back_source _ _ _, .nil, .nil v⟩
      · obtain ⟨face, rfl, usable, link, before⟩ := linked v arrived labelled
        obtain ⟨place, parent, found⟩ := link
        rw [back_of_parent parent arrived]
        rcases ih face.tail (⟨face.tail.val, place⟩ :: path) before with
          ⟨ids, faces, trail, named, walk⟩ | stray
        · refine .inl ⟨ids ++ [⟨face.tail.val, place⟩], faces ++ [face], ?_, ?_, ?_⟩
          · rw [trail, List.append_assoc]
            rfl
          · exact List.rel_append named (.cons ⟨rfl, place, rfl, found⟩ .nil)
          · exact walk.snoc rfl ⟨usable, ⟨place, parent, found⟩, arrived⟩
        · exact .inr stray

end Frontier

namespace Network

open Frontier

variable {net : Network n} {potential : Potential} {source sink : Fin n} {frontier : Frontier n}

/-- The trail of a search names a walk of usable faces that visits no node twice, or never
    arrives at the source. -/
theorem trail_cases (linked : Linked net source frontier) (stopped : Bool)
    (labelled : frontier.dist sink < horizon) :
    (∃ ids faces, (reachOf sink stopped frontier).trail source.val sink.val = .ok ids ∧
      List.Forall₂ net.Names ids faces ∧ Walk net.Usable source faces sink ∧
      (visits source faces).Nodup) ∨
    (reachOf sink stopped frontier).trail source.val sink.val = .error .strayTrail := by
  rw [trail_eq stopped labelled]
  rcases back_cases linked (n + 1) sink [] labelled with ⟨ids, faces, trail, named, walk⟩ | stray
  · refine .inl ⟨ids, faces, ?_, named, walk.mono fun _ fits => fits.1, ?_⟩
    · exact trail.trans (by rw [List.append_nil])
    · exact walk.nodup_of_single (fun _ _ left right => left.2.1.unique right.2.1) fun _ fits => fits.2.2
  · exact .inr stray

end Network

end MinCostFlow
