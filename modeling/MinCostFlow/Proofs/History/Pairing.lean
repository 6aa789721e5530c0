import MinCostFlow.Proofs.History.Reset
import MinCostFlow.Proofs.Solve.Conservation

/-! # The two faces of an arc know each other

When an arc is granted, its name and the place of its twin are settled once and for all. Whatever
happens later, under that name stands the face along the arc and at that place its twin, each is
found from the other, and their rooms add up to the capacity. No place is shared, and no place is
left over.
-/

namespace MinCostFlow

variable {n : Nat}

namespace Network

variable {net : Network n} {arc : Arc n} {position : Nat}

def backwards (net : Network n) : List (Residual n) :=
  net.arcs.zipIdx.map fun (arc, position) => arc.against position

def slots (net : Network n) : List ArcId := net.residuals.map net.slot

/-- What an arc that was granted has become: a face along it and a twin that runs against it, each
    at its place and each found from the other. -/
structure Paired (net : Network n) (granted : Admission) (face twin : Residual n) : Prop where
  edge : net.edge granted.id = .ok face
  row : face.row = granted.row
  original : face.forward = true
  reverse : net.twin face = .ok twin
  twinSlot : net.twinSlot face = granted.twin
  twinEdge : net.edge granted.twin = .ok twin
  twinRow : twin.row =
    { tail := granted.row.head, head := granted.row.tail, capacity := 0, cost := -granted.row.cost }
  residual : twin.forward = false
  back : net.twin twin = .ok face
  slot : net.twinSlot twin = granted.id
  apart : granted.twin ≠ granted.id
  rooms : face.room + twin.room = granted.row.capacity

theorem edge_slot {face : Residual n} (member : face ∈ net.residuals) :
    net.edge (net.slot face) = .ok face := by
  obtain ⟨place, slot, found⟩ := exists_place member
  exact slot ▸ edge_of_getElem? found

theorem twin_eq_edge (net : Network n) (face : Residual n) :
    net.twin face = net.edge (net.twinSlot face) := by
  rw [edge, twinSlot, node_natCast]
  rfl

theorem eq_of_slot {face other : Residual n} (left : face ∈ net.residuals)
    (right : other ∈ net.residuals) (same : net.slot face = net.slot other) : face = other := by
  have named := edge_slot left
  rw [same, edge_slot right] at named
  exact (Except.ok.inj named).symm

/-- The two faces of an arc are paired in any network, whatever it carries. -/
theorem paired_along (found : net.arcs[position]? = some arc) :
    net.Paired
      { row := arc.row, id := net.slot (arc.along position), twin := net.twinSlot (arc.along position) }
      (arc.along position) (arc.against position) := by
  have along := along_mem_residuals found
  have against := against_mem_residuals found
  exact {
    edge := edge_slot along
    row := rfl
    original := rfl
    reverse := by
      rw [twin_eq_edge, twinSlot_along]
      exact edge_slot against
    twinSlot := rfl
    twinEdge := by
      rw [twinSlot_along]
      exact edge_slot against
    twinRow := rfl
    residual := rfl
    back := by
      rw [twin_eq_edge, twinSlot_against]
      exact edge_slot along
    slot := twinSlot_against net arc position
    apart := fun same => by
      rw [twinSlot_along] at same
      have faces := eq_of_slot against along same
      exact Bool.false_ne_true (congrArg Residual.forward faces)
    rooms := arc.room_along_add_room_against position }

theorem paired_register (net : Network n) :
    List.Forall₂ (fun granted face => ∃ twin, net.Paired granted face twin) net.register net.forwards := by
  rw [register, List.forall₂_map_left_iff, List.forall₂_same]
  intro face member
  obtain ⟨⟨arc, position⟩, found, rfl⟩ := List.mem_map.mp member
  exact ⟨arc.against position, paired_along (List.mk_mem_zipIdx_iff_getElem?.mp found)⟩

theorem perm_residuals (net : Network n) : (net.forwards ++ net.backwards).Perm net.residuals := by
  let along := fun item : Arc n × Nat => item.1.along item.2
  let against := fun item : Arc n × Nat => item.1.against item.2
  have faces := List.flatMap_append_perm net.arcs.zipIdx (pure ∘ along) (pure ∘ against)
  rw [List.flatMap_pure_eq_map, List.flatMap_pure_eq_map] at faces
  exact faces

theorem perm_slots (net : Network n) :
    (net.register.map Admission.id ++ net.register.map Admission.twin).Perm net.slots := by
  have twins : net.register.map Admission.twin = net.backwards.map net.slot := by
    simp only [register, forwards, backwards, List.map_map]
    exact List.map_congr_left fun item _ => twinSlot_along net item.1 item.2
  have ids : net.register.map Admission.id = net.forwards.map net.slot := by
    simp only [register, List.map_map]
    rfl
  rw [ids, twins, ← List.map_append]
  exact net.perm_residuals.map net.slot

theorem nodup_slots (net : Network n) : net.slots.Nodup :=
  net.nodup_residuals.map_on fun _ left _ right same => eq_of_slot left right same

theorem mem_slots {id : ArcId} :
    id ∈ net.slots ↔
      ∃ (u : Fin n) (place : Nat), id = { tail := u.val, index := place } ∧
        place < (net.out u).length := by
  constructor
  · intro member
    obtain ⟨face, inside, rfl⟩ := List.mem_map.mp member
    obtain ⟨place, slot, found⟩ := exists_place inside
    exact ⟨face.tail, place, slot, (List.getElem?_eq_some_iff.mp found).1⟩
  · rintro ⟨u, place, rfl, bound⟩
    have inside := (mem_out.mp (List.getElem_mem bound)).1
    exact List.mem_map.mpr ⟨_, inside, (slot_eq_iff inside).mpr (List.getElem?_eq_getElem bound)⟩

/-- What a push along a face has done: `amount` has gone from the room of the face to the room of
    its twin, each in its slot, and what stands in any other slot is as it was. -/
structure Shifted (net next : Network n) (face twin : Residual n) (amount : Int) : Prop where
  reverse : net.twin face = .ok twin
  slots : next.slots = net.slots
  taken : next.edge (net.slot face) = .ok { face with room := face.room - amount }
  given : next.edge (net.twinSlot face) = .ok { twin with room := twin.room + amount }
  others : ∀ other ∈ net.residuals, other ≠ face → other ≠ twin →
    next.edge (net.slot other) = .ok other

theorem slot_pushAlong (net : Network n) (pushed : Residual n) (amount : Int) (face : Residual n) :
    (net.pushAlong pushed amount).slot (pushed.refill amount face) = net.slot face := by
  simp only [slot, Residual.refill, out_pushAlong, List.findIdx_map]
  rfl

theorem slots_pushAlong (net : Network n) (pushed : Residual n) (amount : Int) :
    (net.pushAlong pushed amount).slots = net.slots := by
  simp only [slots, residuals_pushAlong, List.map_map, Function.comp_def, slot_pushAlong]

theorem edge_pushAlong {pushed face : Residual n} (member : face ∈ net.residuals) (amount : Int) :
    (net.pushAlong pushed amount).edge (net.slot face) = .ok (pushed.refill amount face) := by
  rw [← slot_pushAlong net pushed amount face]
  apply edge_slot
  rw [residuals_pushAlong]
  exact List.mem_map_of_mem member

theorem exists_twin {face : Residual n} (member : face ∈ net.residuals) :
    ∃ twin ∈ net.residuals, twin.arc = face.arc ∧ twin.forward = !face.forward ∧
      twin.tail = face.head := by
  obtain ⟨arc, found, side | side⟩ := arc_of_mem member
  · exact ⟨_, against_mem_residuals found, by rw [side]; exact ⟨rfl, rfl, rfl⟩⟩
  · exact ⟨_, along_mem_residuals found, by rw [side]; exact ⟨rfl, rfl, rfl⟩⟩

theorem exists_shifted {face : Residual n} (member : face ∈ net.residuals) (amount : Int) :
    ∃ twin, net.Shifted (net.pushAlong face amount) face twin amount := by
  obtain ⟨twin, inside, arc, forward, tail⟩ := exists_twin member
  have place := net.twinSlot_eq_slot arc forward tail
  have turned : twin.forward ≠ face.forward := by simp [forward]
  refine ⟨twin, ?_, net.slots_pushAlong face amount, ?_, ?_, fun other within unlike unlike' => ?_⟩
  · rw [twin_eq_edge, place, edge_slot inside]
  · rw [edge_pushAlong member, Residual.refill, if_pos rfl, if_pos rfl]
  · rw [place, edge_pushAlong inside, Residual.refill, if_pos arc, if_neg turned]
  · rw [edge_pushAlong within, ← Residual.refill_of_ne]
    intro same
    by_cases side : other.forward = face.forward
    · exact unlike (eq_of_key member within same side)
    · refine unlike' (eq_of_key inside within (same.trans arc.symm) ?_)
      rw [forward]
      exact Bool.eq_not_of_ne side

theorem mem_of_entry {α : Type} {column : Array α} {place : Int} {item : α}
    (found : Position.entry column place = .ok item) : item ∈ column := by
  obtain ⟨position, _, stands⟩ := exists_of_bind_ok found
  exact Except.ok.inj stands ▸ Array.getElem_mem position.isLt

/-- A push shifts its amount between the slot that it names, from either end, and the one of the
    twin. -/
theorem push_shifts {id : ArcId} {amount : Int} {next : Network n}
    (pushed : net.push id amount = .ok next) :
    ∃ leaving face twin, net.outOf id.tail = .ok leaving ∧
      Position.entry leaving.toArray id.index = .ok face ∧ net.Shifted next face twin amount := by
  obtain ⟨u, face, first, second, rfl⟩ := push_eq_ok_iff.mp pushed
  have inside : face ∈ net.out u := List.mem_toArray.mp (mem_of_entry second)
  obtain ⟨twin, shifted⟩ := exists_shifted (mem_out.mp inside).1 amount
  exact ⟨net.out u, face, twin, by rw [outOf, first]; rfl, second, shifted⟩

theorem register_apply (net : Network n) (operation : Operation) :
    (net.apply operation).register = net.register ++ (net.admission? operation).toList := by
  cases net.apply_cases operation with
  | inl granted =>
      obtain ⟨arc, _, _, applied, admitted⟩ := granted
      rw [applied, admitted, register_snoc]
      rfl
  | inr kept =>
      rw [kept.2, register_eq_of_sameArcs kept.1]
      exact (List.append_nil _).symm

theorem register_replay (net : Network n) (history : History) :
    (net.replay history).register = net.register ++ net.admissions history := by
  induction history generalizing net with
  | nil => exact (List.append_nil _).symm
  | cons operation rest ih =>
      rw [replay_cons, ih, register_apply, List.append_assoc]
      rfl

/-- An operation that is answered by a complaint about what was asked for. -/
def Refuses (net : Network n) (fault : Fault) : Operation → Prop
  | .addArc row => net.addArc row.tail row.head row.capacity row.cost = .error fault
  | .push id amount => net.push id amount = .error fault
  | .reset => False
  | .solve source sink options =>
    (net.solve source sink options).outcome = .error fault ∧ ∃ cause, fault = .argument cause

theorem eq_outOfRange_of_entry {α : Type} {column : Array α} {place : Int} {fault : Fault}
    (failed : Position.entry column place = .error fault) : fault = .outOfRange := by
  cases fails_of_bind_error failed with
  | inl failed => exact (Position.slot_eq_error_iff.mp failed).2
  | inr failed => cases failed.choose_spec

theorem push_fault {id : ArcId} {amount : Int} {fault : Fault}
    (refused : net.push id amount = .error fault) : fault = .outOfRange := by
  cases fails_of_bind_error refused with
  | inl failed =>
      cases fails_of_bind_error failed with
      | inl failed => exact (Position.slot_eq_error_iff.mp failed).2
      | inr failed => cases failed.choose_spec
  | inr failed =>
      cases fails_of_bind_error failed.choose_spec with
      | inl failed => exact eq_outOfRange_of_entry failed
      | inr failed => cases failed.choose_spec

theorem addArc_fault {row : ArcRow} {fault : Fault}
    (refused : net.addArc row.tail row.head row.capacity row.cost = .error fault) :
    ∃ cause, fault = .argument cause := by
  rcases net.addArc_cases row with ⟨_, _, _, granted⟩ | ⟨_, cause, same⟩
  · rw [granted] at refused
    cases refused
  · rw [same] at refused
    cases refused
    exact ⟨cause, rfl⟩

theorem apply_of_refuses {fault : Fault} {operation : Operation}
    (refuses : net.Refuses fault operation) :
    net.apply operation = net ∧ (fault = .outOfRange ∨ ∃ cause, fault = .argument cause) := by
  cases operation with
  | addArc row =>
      have refused : net.addArc row.tail row.head row.capacity row.cost = .error fault := refuses
      refine ⟨?_, .inr (addArc_fault refused)⟩
      rw [apply, refused]
  | push id amount =>
      have refused : net.push id amount = .error fault := refuses
      refine ⟨?_, .inl (push_fault refused)⟩
      rw [apply, refused]
  | reset => exact refuses.elim
  | solve source sink options =>
      obtain ⟨failed, cause, rfl⟩ := refuses
      exact ⟨(solve_refused failed).1, .inr ⟨cause, rfl⟩⟩

/-- Whatever happens to a network, each arc that it was granted is still found under its name, with
    its twin in its place, and the arcs come in the order in which they were granted. Their places
    are all the slots there are, and no two of them are the same. A push shifts its amount from the
    slot that it names to the one of the twin, and what is refused changes nothing. -/
theorem pairing_kept (n : Nat) (history : History) :
    let net := (empty n).replay history
    let granted := (empty n).admissions history
    let places := granted.map Admission.id ++ granted.map Admission.twin
    List.Forall₂ (fun admission face => ∃ twin, net.Paired admission face twin) granted net.forwards ∧
      places.Nodup ∧
      (∀ id, id ∈ places ↔ ∃ (u : Fin n) (place : Nat),
        id = { tail := u.val, index := place } ∧ place < (net.out u).length) ∧
      (∀ id amount next, net.push id amount = .ok next → ∃ leaving face twin,
        net.outOf id.tail = .ok leaving ∧ Position.entry leaving.toArray id.index = .ok face ∧
        net.Shifted next face twin amount) ∧
      ∀ operation fault, net.Refuses fault operation →
        net.apply operation = net ∧ (fault = .outOfRange ∨ ∃ cause, fault = .argument cause) := by
  have settled : ((empty n).replay history).register = (empty n).admissions history :=
    register_replay (empty n) history
  dsimp only
  rw [← settled]
  generalize (empty n).replay history = net
  refine ⟨net.paired_register, ?_, fun id => ?_, fun _ _ _ => push_shifts,
    fun _ _ => apply_of_refuses⟩
  · exact net.perm_slots.nodup_iff.mpr net.nodup_slots
  · rw [net.perm_slots.mem_iff, mem_slots]

/-- The twin of a loop stands right behind it, and that of a later arc behind both. -/
example :
    (empty 2).admissions [.addArc ⟨0, 0, 3, 5⟩, .push ⟨0, -1⟩ 7, .addArc ⟨2, 0, 1, 1⟩,
        .addArc ⟨1, 0, 2, -4⟩] =
      [{ row := ⟨0, 0, 3, 5⟩, id := ⟨0, 0⟩, twin := ⟨0, 1⟩ },
        { row := ⟨1, 0, 2, -4⟩, id := ⟨1, 0⟩, twin := ⟨0, 2⟩ }] := by
  decide

end Network

end MinCostFlow
