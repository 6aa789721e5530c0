import MinCostFlow.Network.Basic

/-! # Laws of networks

What each operation does to the arcs. The rooms of the two faces of an arc always add
up to its capacity, a push changes nothing but the flow of one arc, and dropping all
flow undoes every push.
-/

namespace MinCostFlow

namespace Arc

variable {n : Nat}

theorem room_along_add_room_against (arc : Arc n) (position : Nat) :
    (arc.along position).room + (arc.against position).room = arc.capacity := by
  simp [along, against, room]

@[simp] theorem drained_drained (arc : Arc n) : arc.drained.drained = arc.drained := rfl

@[simp] theorem drained_with_flow (arc : Arc n) (flow : Int) :
    ({ arc with flow } : Arc n).drained = arc.drained := rfl

end Arc

namespace Network

variable {n : Nat}

theorem mem_residuals {net : Network n} {face : Residual n} :
    face ∈ net.residuals ↔
      ∃ (position : Nat) (arc : Arc n), net.arcs[position]? = some arc ∧
        (face = arc.along position ∨ face = arc.against position) := by
  simp only [residuals, List.mem_flatMap, List.mem_cons, List.not_mem_nil, or_false, Prod.exists,
    List.mk_mem_zipIdx_iff_getElem?]
  constructor
  · rintro ⟨arc, position, found, side⟩
    exact ⟨position, arc, found, side⟩
  · rintro ⟨position, arc, found, side⟩
    exact ⟨arc, position, found, side⟩

theorem mem_out {net : Network n} {u : Fin n} {face : Residual n} :
    face ∈ net.out u ↔ face ∈ net.residuals ∧ face.tail = u := by
  simp [out]

theorem mem_openArcs {net : Network n} {arc : Arc n} :
    arc ∈ net.openArcs ↔ arc ∈ net.arcs ∧ arc.Open := by
  simp only [openArcs, List.mem_flatMap, List.mem_finRange, true_and, List.mem_filter,
    Bool.decide_and, Bool.and_eq_true, decide_eq_true_eq]
  constructor
  · rintro ⟨u, member, _, isOpen⟩
    exact ⟨member, isOpen⟩
  · rintro ⟨member, isOpen⟩
    exact ⟨arc.tail, member, rfl, isOpen⟩

theorem along_mem_residuals {net : Network n} {position : Nat} {arc : Arc n}
    (found : net.arcs[position]? = some arc) : arc.along position ∈ net.residuals :=
  mem_residuals.mpr ⟨position, arc, found, .inl rfl⟩

theorem against_mem_residuals {net : Network n} {position : Nat} {arc : Arc n}
    (found : net.arcs[position]? = some arc) : arc.against position ∈ net.residuals :=
  mem_residuals.mpr ⟨position, arc, found, .inr rfl⟩

@[simp] theorem reset_reset (net : Network n) : net.reset.reset = net.reset := by
  simp [reset, Function.comp_def]

@[simp] theorem reset_empty (n : Nat) : (empty n).reset = empty n := rfl

@[simp] theorem reset_pushAlong (net : Network n) (face : Residual n) (amount : Int) :
    (net.pushAlong face amount).reset = net.reset := by
  simp only [reset, pushAlong, mk.injEq]
  apply List.ext_getElem?
  intro position
  simp only [List.getElem?_map, List.getElem?_modify]
  split <;> cases net.arcs[position]? <;> simp

@[simp] theorem node_natCast (v : Fin n) : node n v.val = .ok v := by
  have inside : (0 : Int) ≤ v.val ∧ (v.val : Int) < n :=
    ⟨by omega, by exact_mod_cast v.isLt⟩
  exact dif_pos inside

theorem edge_of_getElem? {net : Network n} {u : Fin n} {place : Nat} {face : Residual n}
    (found : (net.out u)[place]? = some face) : net.edge { tail := u.val, index := place } = .ok face := by
  obtain ⟨bound, same⟩ := List.getElem?_eq_some_iff.mp found
  have inside : place < (net.out u).toArray.size := by simpa using bound
  rw [edge, node_natCast]
  exact (Position.entry_natCast inside).trans (congrArg _ (by simpa using same))

theorem push_eq_ok_iff {net next : Network n} {id : ArcId} {amount : Int} :
    net.push id amount = .ok next ↔
      ∃ u face, Position.slot n id.tail = .ok u ∧
        Position.entry (net.out u).toArray id.index = .ok face ∧
        next = net.pushAlong face amount := by
  cases named : Position.slot n id.tail with
  | error fault => simp [push, outOf, named, bind, Except.bind]
  | ok u =>
    cases placed : Position.entry (net.out u).toArray id.index with
    | error fault => simp [push, outOf, named, placed, bind, Except.bind, pure, Except.pure]
    | ok face =>
      simp [push, outOf, named, placed, bind, Except.bind, pure, Except.pure, eq_comm]

theorem reset_append (net : Network n) (arc : Arc n) :
    ({ arcs := net.arcs ++ [arc] } : Network n).reset =
      { arcs := net.reset.arcs ++ [arc.drained] } := by
  simp [reset]

end Network

end MinCostFlow
