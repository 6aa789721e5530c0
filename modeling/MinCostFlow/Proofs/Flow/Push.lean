import MinCostFlow.Proofs.Walk.Cost

/-! # What a push does to balances, costs and rooms

A push moves room from one face of an arc to the other and leaves the list of faces
otherwise as it is. Along a walk the balances of inner nodes cancel, so that only its
two ends notice, and the cost of the flow grows by the cost of the walk.
-/

namespace MinCostFlow

variable {n : Nat}

theorem sum_map_modify {α : Type} (amount : α → Int) (change : α → α) {items : List α}
    {place : Nat} {item : α} (found : items[place]? = some item) :
    ((items.modify place change).map amount).sum =
      (items.map amount).sum + (amount (change item) - amount item) := by
  obtain ⟨bound, rfl⟩ := List.getElem?_eq_some_iff.mp found
  have changed : items.modify place change = items.set place (change items[place]) := by
    simp [List.modify_eq_set_getElem?, bound]
  rw [changed, List.map_set, List.sum_set', dif_pos (by simpa using bound), List.getElem_map]
  omega

/-- What the flow of an arc adds to the balance of a node. -/
def Arc.credit (arc : Arc n) (v : Fin n) : Int :=
  (if arc.head = v then arc.flow else 0) - (if arc.tail = v then arc.flow else 0)

/-- A face after `amount` units have gone along another one. -/
def Residual.refill (pushed : Residual n) (amount : Int) (face : Residual n) : Residual n :=
  { face with room :=
      if face.arc = pushed.arc then
        if face.forward = pushed.forward then face.room - amount else face.room + amount
      else face.room }

theorem Residual.refill_of_ne {pushed face : Residual n} (other : face.arc ≠ pushed.arc)
    (amount : Int) : face = pushed.refill amount face := by
  simp [refill, other]

namespace Network

variable {net : Network n}

theorem exactBalance_eq_sum (net : Network n) (v : Fin n) :
    net.exactBalance v = (net.arcs.map fun arc => arc.credit v).sum := by
  rw [exactBalance, inflow, outflow, sum_map_filter, sum_map_filter, sub_eq_add_neg, List.sum_neg,
    List.map_map, ← List.sum_map_add]
  rfl

theorem flatMap_modify {change : Arc n → Arc n} {refill : Residual n → Residual n}
    {position : Nat} (arcs : List (Arc n)) (start : Nat)
    (elsewhere : ∀ face : Residual n, face.arc ≠ start + position → refill face = face)
    (here : ∀ arc : Arc n,
      refill (arc.along (start + position)) = (change arc).along (start + position) ∧
      refill (arc.against (start + position)) = (change arc).against (start + position)) :
    ((arcs.modify position change).zipIdx start).flatMap
        (fun (arc, place) => [arc.along place, arc.against place]) =
      ((arcs.zipIdx start).flatMap
        fun (arc, place) => [arc.along place, arc.against place]).map refill := by
  induction arcs generalizing start position with
  | nil => simp
  | cons first rest ih =>
      cases position with
      | zero =>
          have others : ∀ face ∈ (rest.zipIdx (start + 1)).flatMap
              (fun (arc, place) => [arc.along place, arc.against place]), refill face = face := by
            intro face member
            obtain ⟨⟨arc, place⟩, later, side⟩ := List.mem_flatMap.mp member
            have bound := List.le_snd_of_mem_zipIdx later
            apply elsewhere face
            rcases List.mem_pair.mp side with rfl | rfl <;> simp [Arc.along, Arc.against] <;> omega
          have first_faces := here first
          simp only [Nat.add_zero] at first_faces
          simp only [List.modify_zero_cons, List.zipIdx_cons, List.flatMap_cons, List.map_append,
            List.map_cons, List.map_nil, first_faces.1, first_faces.2]
          rw [List.map_congr_left others, List.map_id']
      | succ position =>
          have shift : start + (position + 1) = start + 1 + position := by omega
          have along : refill (first.along start) = first.along start :=
            elsewhere _ (by simp only [Arc.along]; omega)
          have against : refill (first.against start) = first.against start :=
            elsewhere _ (by simp only [Arc.against]; omega)
          simp only [List.modify_succ_cons, List.zipIdx_cons, List.flatMap_cons, List.map_append,
            List.map_cons, List.map_nil, along, against]
          rw [ih (start + 1) (shift ▸ elsewhere) (shift ▸ here)]

theorem residuals_pushAlong (net : Network n) (face : Residual n) (amount : Int) :
    (net.pushAlong face amount).residuals = net.residuals.map (face.refill amount) := by
  refine flatMap_modify net.arcs 0 ?_ ?_
  · intro other away
    exact (Residual.refill_of_ne (by omega) amount).symm
  · intro arc
    cases forward : face.forward <;>
      simp [Residual.refill, Arc.along, Arc.against, Arc.room, forward] <;> omega

theorem out_pushAlong (net : Network n) (face : Residual n) (amount : Int) (u : Fin n) :
    (net.pushAlong face amount).out u = (net.out u).map (face.refill amount) := by
  simp only [out, residuals_pushAlong, List.filter_map]
  rfl

theorem mem_residuals_pushAlong {face other : Residual n} {amount : Int}
    (member : other ∈ net.residuals) (away : other.arc ≠ face.arc) :
    other ∈ (net.pushAlong face amount).residuals := by
  rw [residuals_pushAlong, Residual.refill_of_ne away amount]
  exact List.mem_map_of_mem member

theorem getElem?_pushAlong_self {face : Residual n} {arc : Arc n} (amount : Int)
    (found : net.arcs[face.arc]? = some arc) :
    (net.pushAlong face amount).arcs[face.arc]? =
      some { arc with flow := if face.forward then arc.flow + amount else arc.flow - amount } := by
  simp [pushAlong, found]

theorem getElem?_pushAlong_of_ne {face : Residual n} {position : Nat} (amount : Int)
    (away : position ≠ face.arc) :
    (net.pushAlong face amount).arcs[position]? = net.arcs[position]? := by
  simp [pushAlong, Ne.symm away]

theorem exactBalance_pushAlong {face : Residual n} (member : face ∈ net.residuals) (amount : Int)
    (v : Fin n) :
    (net.pushAlong face amount).exactBalance v = net.exactBalance v +
      (if face.head = v then amount else 0) - (if face.tail = v then amount else 0) := by
  obtain ⟨arc, found, side⟩ := arc_of_mem member
  rw [exactBalance_eq_sum, exactBalance_eq_sum, pushAlong, sum_map_modify _ _ found]
  rcases side with side | side <;> rw [side] <;>
    simp only [Arc.along, Arc.against, Arc.credit] <;> grind

theorem totalCost_pushAlong {face : Residual n} (member : face ∈ net.residuals) (amount : Int) :
    (net.pushAlong face amount).totalCost = net.totalCost + amount * face.cost := by
  obtain ⟨arc, found, side⟩ := arc_of_mem member
  rw [totalCost, pushAlong, sum_map_modify _ _ found, totalCost]
  rcases side with side | side <;> rw [side] <;> simp only [Arc.along, Arc.against] <;> grind

theorem withinCapacity_pushAlong {face : Residual n} (member : face ∈ net.residuals) {amount : Int}
    (within : net.WithinCapacity) (nonneg : 0 ≤ amount) (fits : amount ≤ face.room) :
    (net.pushAlong face amount).WithinCapacity := by
  intro arc inside
  obtain ⟨position, found⟩ := List.mem_iff_getElem?.mp inside
  by_cases here : position = face.arc
  · subst here
    obtain ⟨before, was, side⟩ := arc_of_mem member
    rw [getElem?_pushAlong_self amount was] at found
    obtain rfl := Option.some.inj found
    have bounds := within before (List.mem_of_getElem? was)
    rcases side with side | side <;> rw [side] at fits ⊢ <;>
      simp only [Arc.along, Arc.against, Arc.room, Bool.false_eq_true, if_true, if_false] at fits ⊢ <;>
      omega
  · rw [getElem?_pushAlong_of_ne amount here] at found
    exact within arc (List.mem_of_getElem? found)

def pushEach (net : Network n) (faces : List (Residual n)) (amount : Int) : Network n :=
  faces.foldl (fun net face => net.pushAlong face amount) net

@[simp] theorem pushEach_nil (net : Network n) (amount : Int) : net.pushEach [] amount = net := rfl

@[simp] theorem pushEach_cons (net : Network n) (face : Residual n) (rest : List (Residual n))
    (amount : Int) :
    net.pushEach (face :: rest) amount = (net.pushAlong face amount).pushEach rest amount := rfl

theorem sameArcs_pushEach (net : Network n) (faces : List (Residual n)) (amount : Int) :
    SameArcs (net.pushEach faces amount) net := by
  induction faces generalizing net with
  | nil => exact rfl
  | cons face rest ih =>
      exact (ih (net.pushAlong face amount)).trans (sameArcs_pushAlong net face amount)

/-- Faces of a network no two of which belong to the same arc. -/
structure Separate (net : Network n) (faces : List (Residual n)) : Prop where
  members : ∀ face ∈ faces, face ∈ net.residuals
  distinct : (faces.map Residual.arc).Nodup

namespace Separate

variable {faces rest : List (Residual n)} {face : Residual n} {amount : Int}

theorem of_walk {u v : Fin n} (walk : Walk net.Usable u faces v) (simple : (visits u faces).Nodup) :
    net.Separate faces where
  members _ member := (walk.allowed_of_mem member).1
  distinct := walk.nodup_arcs simple

theorem head (separate : net.Separate (face :: rest)) : face ∈ net.residuals :=
  separate.members face List.mem_cons_self

theorem away (separate : net.Separate (face :: rest)) {other : Residual n} (later : other ∈ rest) :
    other.arc ≠ face.arc := by
  intro same
  exact (List.nodup_cons.mp separate.distinct).1 (same ▸ List.mem_map_of_mem later)

theorem tail (separate : net.Separate (face :: rest)) (amount : Int) :
    (net.pushAlong face amount).Separate rest where
  members other later :=
    mem_residuals_pushAlong (separate.members other (List.mem_cons_of_mem _ later))
      (separate.away later)
  distinct := (List.nodup_cons.mp separate.distinct).2

theorem exactBalance_pushEach {allowed : Residual n → Prop} {u v : Fin n}
    (separate : net.Separate faces) (walk : Walk allowed u faces v) (amount : Int) (w : Fin n) :
    (net.pushEach faces amount).exactBalance w = net.exactBalance w +
      (if v = w then amount else 0) - (if u = w then amount else 0) := by
  induction walk generalizing net with
  | nil u =>
      rw [pushEach_nil]
      omega
  | cons _ _ ih =>
      rw [pushEach_cons, ih (separate.tail amount), exactBalance_pushAlong separate.head]
      omega

theorem totalCost_pushEach (separate : net.Separate faces) (amount : Int) :
    (net.pushEach faces amount).totalCost = net.totalCost + amount * walkCost faces := by
  induction faces generalizing net with
  | nil => simp [walkCost]
  | cons face rest ih =>
      rw [pushEach_cons, ih (separate.tail amount), totalCost_pushAlong separate.head]
      simp only [walkCost, List.map_cons, List.sum_cons]
      rw [Int.mul_add]
      omega

theorem withinCapacity_pushEach (separate : net.Separate faces) (within : net.WithinCapacity)
    (nonneg : 0 ≤ amount) (fits : ∀ face ∈ faces, amount ≤ face.room) :
    (net.pushEach faces amount).WithinCapacity := by
  induction faces generalizing net with
  | nil => exact within
  | cons face rest ih =>
      have first := withinCapacity_pushAlong separate.head within nonneg
        (fits face List.mem_cons_self)
      exact ih (separate.tail amount) first fun other later =>
        fits other (List.mem_cons_of_mem _ later)

theorem getElem?_pushEach {position : Nat} (net : Network n) (amount : Int)
    (away : position ∉ faces.map Residual.arc) :
    (net.pushEach faces amount).arcs[position]? = net.arcs[position]? := by
  induction faces generalizing net with
  | nil => rfl
  | cons face rest ih =>
      rw [List.map_cons, List.mem_cons, not_or] at away
      rw [pushEach_cons, ih _ away.2, getElem?_pushAlong_of_ne amount away.1]

end Separate

/-- A face that can be used after a push could be used before, or it runs against the face
    that was pushed along. -/
theorem usable_of_pushAlong {face other : Residual n} {amount : Int}
    (member : face ∈ net.residuals) (nonneg : 0 ≤ amount)
    (usable : (net.pushAlong face amount).Usable other) :
    (∃ before, net.Usable before ∧ other.tail = before.tail ∧ other.head = before.head ∧
      other.cost = before.cost) ∨
    other.tail = face.head ∧ other.head = face.tail ∧ other.cost = -face.cost := by
  obtain ⟨inside, room⟩ := usable
  rw [residuals_pushAlong] at inside
  obtain ⟨before, was, rfl⟩ := List.mem_map.mp inside
  by_cases same : before.arc = face.arc
  · by_cases side : before.forward = face.forward
    · simp only [Residual.refill, same, side, if_true] at room
      exact .inl ⟨before, ⟨was, by omega⟩, rfl, rfl, rfl⟩
    · right
      obtain ⟨arc, found, first⟩ := arc_of_mem member
      obtain ⟨again, refound, second⟩ := arc_of_mem was
      rw [same, found] at refound
      obtain rfl := Option.some.inj refound
      change before.tail = face.head ∧ before.head = face.tail ∧ before.cost = -face.cost
      rcases first with first | first <;> rcases second with second | second <;>
        rw [first, second] at side ⊢ <;> simp [Arc.along, Arc.against] at side ⊢
  · rw [← Residual.refill_of_ne same amount] at room
    exact .inl ⟨before, ⟨was, room⟩, rfl, rfl, rfl⟩

theorem Separate.usable_of_pushEach {faces : List (Residual n)} {other : Residual n} {amount : Int}
    (separate : net.Separate faces) (nonneg : 0 ≤ amount)
    (usable : (net.pushEach faces amount).Usable other) :
    (∃ before, net.Usable before ∧ other.tail = before.tail ∧ other.head = before.head ∧
      other.cost = before.cost) ∨
    ∃ face ∈ faces, other.tail = face.head ∧ other.head = face.tail ∧ other.cost = -face.cost := by
  induction faces generalizing net with
  | nil => exact .inl ⟨other, usable, rfl, rfl, rfl⟩
  | cons face rest ih =>
      rcases ih (separate.tail amount) usable with
        ⟨before, usable, tail, head, cost⟩ | ⟨other, member, reversed⟩
      · rw [tail, head, cost]
        cases usable_of_pushAlong separate.head nonneg usable with
        | inl kept => exact .inl kept
        | inr reversed => exact .inr ⟨face, List.mem_cons_self, reversed⟩
      · exact .inr ⟨other, List.mem_cons_of_mem _ member, reversed⟩

/-- A name and the residual arc that it stands for. -/
def Names (net : Network n) (id : ArcId) (face : Residual n) : Prop :=
  id.tail = face.tail.val ∧
    ∃ place : Nat, id.index = place ∧ (net.out face.tail)[place]? = some face

theorem push_of_names {id : ArcId} {face : Residual n} (named : net.Names id face) (amount : Int) :
    net.push id amount = .ok (net.pushAlong face amount) := by
  obtain ⟨tail, place, index, found⟩ := named
  obtain ⟨bound, same⟩ := List.getElem?_eq_some_iff.mp found
  refine push_eq_ok_iff.mpr ⟨face.tail, face, ?_, ?_, rfl⟩
  · rw [tail]
    exact Position.slot_natCast face.tail
  · rw [index, Position.entry_natCast (by simpa using bound)]
    simpa using same

theorem names_pushAlong {id : ArcId} {face pushed : Residual n} (named : net.Names id face)
    (away : face.arc ≠ pushed.arc) (amount : Int) : (net.pushAlong pushed amount).Names id face := by
  obtain ⟨tail, place, index, found⟩ := named
  refine ⟨tail, place, index, ?_⟩
  rw [out_pushAlong, List.getElem?_map, found, Option.map_some, ← Residual.refill_of_ne away]

/-- Pushing by name along separate faces never fails. -/
theorem foldlM_push {ids : List ArcId} {faces : List (Residual n)}
    (named : List.Forall₂ net.Names ids faces) (distinct : (faces.map Residual.arc).Nodup)
    (amount : Int) :
    ids.foldlM (fun net id => net.push id amount) net = .ok (net.pushEach faces amount) := by
  induction faces generalizing net ids with
  | nil =>
      cases named
      rfl
  | cons face rest ih =>
      cases named with
      | cons first named =>
          obtain ⟨fresh, distinct⟩ := List.nodup_cons.mp distinct
          rw [List.foldlM_cons, push_of_names first, pushEach_cons]
          refine ih (List.forall₂_iff_get.mpr ⟨named.length_eq, fun i left right => ?_⟩) distinct
          refine names_pushAlong (named.get left right) (fun same => fresh ?_) amount
          exact same ▸ List.mem_map_of_mem (List.get_mem _ _)

end Network

end MinCostFlow
