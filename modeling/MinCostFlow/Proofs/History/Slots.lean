import Mathlib.Data.List.Flatten
import Mathlib.Data.List.Nodup
import MinCostFlow.Network.History
import MinCostFlow.Proofs.Walk.Cost

/-! # Where the faces of arcs stand

The faces that leave a node are a list, and a place in that list is all that names a face. No
face stands twice, so the face determines its slot just as the slot determines the face. An arc
that is added puts its two faces behind all others, and whatever is sent or dropped moves no
face; so slots stay what they are for good.
-/

namespace MinCostFlow

variable {n : Nat}

def Arc.row (arc : Arc n) : ArcRow where
  tail := arc.tail.val
  head := arc.head.val
  capacity := arc.capacity
  cost := arc.cost

namespace Residual

def drained (face : Residual n) : Residual n := { face with room := face.initial }

def row (face : Residual n) : ArcRow where
  tail := face.tail.val
  head := face.head.val
  capacity := face.initial
  cost := face.cost

end Residual

namespace Network

variable {net other : Network n} {face : Residual n}

/-- The slot of a face: its tail, and its place among the faces that leave the tail. -/
def slot (net : Network n) (face : Residual n) : ArcId where
  tail := face.tail.val
  index := (net.out face.tail).findIdx fun item => item.arc = face.arc ∧ item.forward = face.forward

def twinSlot (net : Network n) (face : Residual n) : ArcId where
  tail := face.head.val
  index := net.twinIndex face

/-- The arcs in insertion order, each with the slots of its two faces. -/
def register (net : Network n) : List Admission :=
  net.forwards.map fun face => { row := face.row, id := net.slot face, twin := net.twinSlot face }

theorem twinSlot_eq_slot {twin : Residual n} (arc : twin.arc = face.arc)
    (forward : twin.forward = !face.forward) (tail : twin.tail = face.head) :
    net.twinSlot face = net.slot twin := by
  have test (item : Residual n) : decide (item.arc = face.arc ∧ item.forward ≠ face.forward) =
      decide (item.arc = twin.arc ∧ item.forward = twin.forward) := by
    rw [arc, forward]
    cases item.forward <;> cases face.forward <;> simp
  rw [slot, tail]
  exact congrArg (fun test => ArcId.mk face.head.val ((net.out face.head).findIdx test)) (funext test)

theorem twinSlot_along (net : Network n) (arc : Arc n) (position : Nat) :
    net.twinSlot (arc.along position) = net.slot (arc.against position) :=
  twinSlot_eq_slot rfl rfl rfl

theorem twinSlot_against (net : Network n) (arc : Arc n) (position : Nat) :
    net.twinSlot (arc.against position) = net.slot (arc.along position) :=
  twinSlot_eq_slot rfl rfl rfl

section reset

theorem forwards_reset (net : Network n) : net.reset.forwards = net.forwards.map Residual.drained := by
  simp only [forwards, reset, List.zipIdx_map, List.map_map]
  simp [Function.comp_def, Arc.along, Residual.drained, Arc.drained, Arc.room]

theorem residuals_reset (net : Network n) :
    net.reset.residuals = net.residuals.map Residual.drained := by
  simp only [residuals, reset, List.zipIdx_map, List.flatMap_map, List.map_flatMap]
  rfl

theorem out_reset (net : Network n) (u : Fin n) :
    net.reset.out u = (net.out u).map Residual.drained := by
  simp only [out, residuals_reset, List.filter_map]
  rfl

theorem slot_reset (net : Network n) (face : Residual n) :
    net.reset.slot face.drained = net.slot face := by
  simp only [slot, Residual.drained, out_reset, List.findIdx_map]
  rfl

theorem twinSlot_reset (net : Network n) (face : Residual n) :
    net.reset.twinSlot face.drained = net.twinSlot face := by
  simp only [twinSlot, twinIndex, Residual.drained, out_reset, List.findIdx_map]
  rfl

theorem register_reset (net : Network n) : net.reset.register = net.register := by
  simp only [register, forwards_reset, List.map_map]
  apply List.map_congr_left
  intro face _
  simp only [Function.comp_apply, slot_reset, twinSlot_reset]
  rfl

theorem register_eq_of_sameArcs (same : SameArcs other net) : other.register = net.register := by
  rw [← register_reset other, same, register_reset]

end reset

theorem residuals_snoc (net : Network n) (arc : Arc n) :
    ({ arcs := net.arcs ++ [arc] } : Network n).residuals =
      net.residuals ++ [arc.along net.arcs.length, arc.against net.arcs.length] := by
  simp [residuals, List.zipIdx_append]

theorem forwards_snoc (net : Network n) (arc : Arc n) :
    ({ arcs := net.arcs ++ [arc] } : Network n).forwards =
      net.forwards ++ [arc.along net.arcs.length] := by
  simp [forwards, List.zipIdx_append]

theorem out_snoc (net : Network n) (arc : Arc n) (u : Fin n) :
    ({ arcs := net.arcs ++ [arc] } : Network n).out u = net.out u ++
      [arc.along net.arcs.length, arc.against net.arcs.length].filter fun face => face.tail = u := by
  simp only [out, residuals_snoc, List.filter_append]

theorem arc_lt_of_mem (member : face ∈ net.residuals) : face.arc < net.arcs.length := by
  obtain ⟨_, found, _⟩ := arc_of_mem member
  exact (List.getElem?_eq_some_iff.mp found).1

theorem nodup_residuals (net : Network n) : net.residuals.Nodup := by
  obtain ⟨arcs⟩ := net
  induction arcs using List.reverseRecOn with
  | nil => exact List.nodup_nil
  | append_singleton arcs arc ih =>
      rw [residuals_snoc ⟨arcs⟩ arc]
      refine List.nodup_append.mpr ⟨ih, ?_, fun old before new after same => ?_⟩
      · simp [Arc.along, Arc.against]
      · have bound := arc_lt_of_mem before
        rw [same] at bound
        rcases List.mem_pair.mp after with rfl | rfl <;> exact absurd bound (Nat.lt_irrefl _)

theorem eq_of_key (left : face ∈ net.residuals) {item : Residual n} (right : item ∈ net.residuals)
    (arc : item.arc = face.arc) (forward : item.forward = face.forward) : item = face := by
  obtain ⟨own, found, first⟩ := arc_of_mem left
  obtain ⟨again, refound, second⟩ := arc_of_mem right
  rw [arc, found] at refound
  obtain rfl := Option.some.inj refound
  rw [arc] at second
  rcases first with first | first <;> rcases second with second | second <;>
    rw [first, second] at forward ⊢ <;> cases forward

theorem findIdx_eq_of_key {u : Fin n} {place : Nat} (found : (net.out u)[place]? = some face)
    {test : Residual n → Bool} (own : test face = true)
    (only : ∀ item ∈ net.residuals, test item = true → item = face) :
    (net.out u).findIdx test = place := by
  obtain ⟨bound, same⟩ := List.getElem?_eq_some_iff.mp found
  refine (List.findIdx_eq bound).mpr ⟨same ▸ own, fun earlier before => ?_⟩
  by_contra passes
  have inside : earlier < (net.out u).length := Nat.lt_trans before bound
  have again := only _ (mem_out.mp (List.getElem_mem inside)).1 (Bool.not_eq_false _ ▸ passes)
  have distinct : (net.out u).Nodup := net.nodup_residuals.filter _
  have places := (distinct.getElem_inj_iff).mp (again.trans same.symm)
  omega

/-- The slot of a face is the one where it stands. -/
theorem slot_eq_iff (member : face ∈ net.residuals) {u : Fin n} {place : Nat} :
    net.slot face = { tail := u.val, index := place } ↔ (net.out u)[place]? = some face := by
  have standing : ∀ {place : Nat}, (net.out face.tail)[place]? = some face →
      (net.out face.tail).findIdx
        (fun item => item.arc = face.arc ∧ item.forward = face.forward) = place := by
    intro place found
    refine findIdx_eq_of_key found (by simp) fun item inside passes => ?_
    simp only [decide_eq_true_eq] at passes
    exact eq_of_key member inside passes.1 passes.2
  constructor
  · intro same
    simp only [slot, ArcId.mk.injEq, Int.natCast_inj] at same
    obtain ⟨tail, index⟩ := same
    obtain rfl : face.tail = u := Fin.ext tail
    obtain ⟨place', found⟩ := List.mem_iff_getElem?.mp (mem_out.mpr ⟨member, rfl⟩)
    rw [← index, standing found, found]
  · intro found
    obtain rfl : face.tail = u := (mem_out.mp (List.mem_of_getElem? found)).2
    simp only [slot, standing found]

theorem exists_place (member : face ∈ net.residuals) :
    ∃ place : Nat, net.slot face = { tail := face.tail.val, index := place } ∧
      (net.out face.tail)[place]? = some face :=
  ⟨_, rfl, (slot_eq_iff member).mp rfl⟩

theorem slot_snoc (member : face ∈ net.residuals) (arc : Arc n) :
    ({ arcs := net.arcs ++ [arc] } : Network n).slot face = net.slot face := by
  obtain ⟨place, slot, found⟩ := exists_place member
  have still : face ∈ ({ arcs := net.arcs ++ [arc] } : Network n).residuals := by
    rw [residuals_snoc]
    exact List.mem_append_left _ member
  rw [slot, slot_eq_iff still, out_snoc]
  exact List.getElem?_append_left (List.getElem?_eq_some_iff.mp found).1 ▸ found

theorem slot_along_snoc (net : Network n) (arc : Arc n) :
    ({ arcs := net.arcs ++ [arc] } : Network n).slot (arc.along net.arcs.length) =
      { tail := arc.tail.val, index := (net.out arc.tail).length } := by
  have member : arc.along net.arcs.length ∈ ({ arcs := net.arcs ++ [arc] } : Network n).residuals := by
    rw [residuals_snoc]
    exact List.mem_append_right _ List.mem_cons_self
  rw [slot_eq_iff member, out_snoc]
  simp [Arc.along]

/-- The twin takes the next free place at the head, the arc itself counted if it is a loop. -/
theorem slot_against_snoc (net : Network n) (arc : Arc n) :
    ({ arcs := net.arcs ++ [arc] } : Network n).slot (arc.against net.arcs.length) =
      { tail := arc.head.val
        index := (net.out arc.head).length + if arc.tail = arc.head then 1 else 0 } := by
  have member : arc.against net.arcs.length ∈ ({ arcs := net.arcs ++ [arc] } : Network n).residuals := by
    rw [residuals_snoc]
    exact List.mem_append_right _ (List.mem_cons_of_mem _ List.mem_cons_self)
  by_cases loop : arc.tail = arc.head
  · rw [if_pos loop]
    refine (slot_eq_iff member).mpr ?_
    rw [out_snoc]
    simp [Arc.along, Arc.against, loop]
  · rw [if_neg loop]
    refine (slot_eq_iff member).mpr ?_
    rw [out_snoc]
    simp [Arc.along, Arc.against, loop]

/-- An arc that is added is entered behind all others. -/
theorem register_snoc (net : Network n) (arc : Arc n) :
    ({ arcs := net.arcs ++ [arc] } : Network n).register = net.register ++
      [{ row := arc.row
         id := { tail := arc.tail.val, index := (net.out arc.tail).length }
         twin :=
          { tail := arc.head.val
            index := (net.out arc.head).length + if arc.tail = arc.head then 1 else 0 } }] := by
  rw [register, forwards_snoc, List.map_append, List.map_singleton, slot_along_snoc,
    twinSlot_along, slot_against_snoc]
  congr 1
  apply List.map_congr_left
  intro face member
  obtain ⟨⟨before, position⟩, found, rfl⟩ := List.mem_map.mp member
  have found := List.mk_mem_zipIdx_iff_getElem?.mp found
  rw [slot_snoc (along_mem_residuals found), twinSlot_along, twinSlot_along,
    slot_snoc (against_mem_residuals found)]

end Network

end MinCostFlow
