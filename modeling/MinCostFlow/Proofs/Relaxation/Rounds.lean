import MinCostFlow.Network.Walk
import MinCostFlow.Proofs.Walk.Simple

/-! # What rounds of relaxation achieve

Every distance is the cost of a walk over open arcs from a node that was at zero at the
outset, and after `k` rounds no walk of at most `k` arcs undercuts it. A round that improves
nothing leaves everything as it is, so after it no walk undercuts any distance.
-/

namespace MinCostFlow

variable {n : Nat}

namespace Relaxation

variable {net : Network n} {start state prev : Relaxation n} {arcs : List (Arc n)} {arc : Arc n}

/-- An arc whose tail has been reached and that offers its head a cheaper way. -/
def Improves (state : Relaxation n) (arc : Arc n) : Prop :=
  state.dist.entry arc.tail ≠ horizon ∧
    state.dist.entry arc.tail + arc.cost < state.dist.entry arc.head

/-- The state after the head of an arc has taken the way that the arc offers. -/
def move (state : Relaxation n) (arc : Arc n) : Relaxation n where
  dist := state.dist.put arc.head (state.dist.entry arc.tail + arc.cost)
  via := state.via.put arc.head (some arc.tail)
  moved := some arc.head

theorem improve_cases (state : Relaxation n) (arc : Arc n) :
    (state.Improves arc ∧ state.improve arc = state.move arc) ∨
      (¬ state.Improves arc ∧ state.improve arc = state) := by
  by_cases improves : state.Improves arc
  · exact .inl ⟨improves, if_pos improves⟩
  · exact .inr ⟨improves, if_neg improves⟩

theorem dist_move_self : (state.move arc).dist.entry arc.head =
    state.dist.entry arc.tail + arc.cost :=
  PerNode.entry_put_self _ _ _

theorem dist_move_of_ne {v : Fin n} (other : v ≠ arc.head) :
    (state.move arc).dist.entry v = state.dist.entry v :=
  PerNode.entry_put_of_ne _ other.symm _

theorem dist_move_le (improves : state.Improves arc) (v : Fin n) :
    (state.move arc).dist.entry v ≤ state.dist.entry v := by
  by_cases here : v = arc.head
  · rw [here, dist_move_self]
    exact Int.le_of_lt improves.2
  · exact Int.le_of_eq (dist_move_of_ne here)

theorem dist_foldl_le (arcs : List (Arc n)) (state : Relaxation n) (v : Fin n) :
    (arcs.foldl improve state).dist.entry v ≤ state.dist.entry v := by
  induction arcs generalizing state with
  | nil => exact Int.le_refl _
  | cons arc rest ih => exact Int.le_trans (ih _) (dist_improve_le state arc v)

/-- What each improvement keeps, looking at every arc keeps. The motive knows which arcs are
    still to come. -/
theorem foldl_improve (arcs : List (Arc n)) (state : Relaxation n)
    {motive : List (Arc n) → Relaxation n → Prop}
    (moves : ∀ state arc rest, arc ∈ arcs → motive (arc :: rest) state → state.Improves arc →
      motive rest (state.move arc))
    (skips : ∀ state arc rest, motive (arc :: rest) state → ¬ state.Improves arc → motive rest state)
    (holds : motive arcs state) : motive [] (arcs.foldl improve state) := by
  induction arcs generalizing state with
  | nil => exact holds
  | cons arc rest ih =>
      refine ih _ (fun state other later member =>
        moves state other later (List.mem_cons_of_mem _ member)) ?_
      rcases improve_cases state arc with ⟨improves, same⟩ | ⟨fails, same⟩ <;> rw [same]
      · exact moves state arc rest List.mem_cons_self holds improves
      · exact skips state arc rest holds fails

/-- After a round no arc offers its head more than the distances before the round gave it. -/
theorem dist_head_round_le (member : arc ∈ arcs) (reached : state.dist.entry arc.tail < horizon) :
    (state.round arcs).dist.entry arc.head ≤ state.dist.entry arc.tail + arc.cost := by
  have offered : ∀ state : Relaxation n, state.dist.entry arc.tail < horizon →
      (arcs.foldl improve state).dist.entry arc.head ≤ state.dist.entry arc.tail + arc.cost := by
    intro state reached
    induction arcs generalizing state with
    | nil => simp at member
    | cons first rest ih =>
        rcases List.mem_cons.mp member with rfl | member
        · apply Int.le_trans (dist_foldl_le rest _ _)
          rcases improve_cases state arc with ⟨_, same⟩ | ⟨fails, same⟩ <;> rw [same]
          · exact Int.le_of_eq dist_move_self
          · exact Int.not_lt.mp fun cheaper => fails ⟨Int.ne_of_lt reached, cheaper⟩
        · have lower := dist_improve_le state first arc.tail
          have later := ih member (state.improve first) (by omega)
          simp only [List.foldl_cons]
          omega
  exact offered { state with moved := none } reached

theorem foldl_improve_eq_self (arcs : List (Arc n)) (state : Relaxation n)
    (quiet : (arcs.foldl improve state).moved = none) : arcs.foldl improve state = state := by
  induction arcs generalizing state with
  | nil => rfl
  | cons arc rest ih =>
      rw [List.foldl_cons] at quiet ⊢
      have later := ih _ quiet
      rw [later] at quiet ⊢
      rcases improve_cases state arc with ⟨_, same⟩ | ⟨_, same⟩
      · rw [same] at quiet
        simp [move] at quiet
      · exact same

theorem dist_round_of_quiet (quiet : (state.round arcs).moved = none) :
    (state.round arcs).dist = state.dist := by
  rw [round, foldl_improve_eq_self arcs { state with moved := none } quiet]

theorem dist_round_lt {v : Fin n} (moved : (state.round arcs).moved = some v) :
    (state.round arcs).dist.entry v < state.dist.entry v := by
  have fell : ∀ v, (state.round arcs).moved = some v →
      (state.round arcs).dist.entry v < state.dist.entry v := by
    refine (foldl_improve arcs { state with moved := none }
      (motive := fun _ last => (∀ v, last.dist.entry v ≤ state.dist.entry v) ∧
        ∀ v, last.moved = some v → last.dist.entry v < state.dist.entry v) ?_ ?_ ?_).2
    · rintro last arc _ _ ⟨lower, _⟩ improves
      have before := lower arc.head
      have cheaper := improves.2
      refine ⟨fun v => ?_, fun v moved => ?_⟩
      · by_cases here : v = arc.head
        · rw [here, dist_move_self]
          omega
        · rw [dist_move_of_ne here]
          exact lower v
      · obtain rfl : arc.head = v := by simpa [move] using moved
        rw [dist_move_self]
        omega
    · exact fun _ _ _ holds _ => holds
    · exact ⟨fun _ => Int.le_refl _, by simp⟩
  exact fell v moved

/-- All the ways in which rounds can end: with a round that moves nothing, or after as many
    rounds as were asked for. -/
inductive Rest (motive : Nat → Relaxation n → Prop) (arcs : List (Arc n)) (count : Nat) :
    Relaxation n → Prop where
  | quiet {k : Nat} {prev : Relaxation n} : motive k prev → (prev.round arcs).moved = none →
    Rest motive arcs count (prev.round arcs)
  | full {last : Relaxation n} : motive count last → Rest motive arcs count last

theorem rounds_rest (arcs : List (Arc n)) (start : Relaxation n)
    {motive : Nat → Relaxation n → Prop}
    (keeps : ∀ k prev, motive k prev → (prev.round arcs).moved ≠ none →
      motive (k + 1) (prev.round arcs))
    (holds : motive 0 start) (count : Nat) : Rest motive arcs count (start.rounds arcs count) := by
  suffices onward : ∀ k state, motive k state →
      Rest motive arcs (k + count) (state.rounds arcs count) by
    simpa using onward 0 start holds
  induction count with
  | zero => exact fun k state holds => .full holds
  | succ count ih =>
      intro k state holds
      unfold rounds
      dsimp only
      split
      · rename_i still
        exact .quiet holds still
      · rename_i moved
        have later := ih (k + 1) _ (keeps k state holds moved)
        rwa [Nat.add_right_comm, Nat.add_assoc] at later

/-- Nodes begin at zero or out of reach. -/
def Plain (start : Relaxation n) : Prop :=
  ∀ v, start.dist.entry v = 0 ∨ start.dist.entry v = horizon

/-- Each distance has fallen from where it began, and is the cost of a walk from a node that
    began at zero. -/
structure Grounded (net : Network n) (start state : Relaxation n) : Prop where
  lower : ∀ v, state.dist.entry v ≤ start.dist.entry v
  attained : ∀ v, state.dist.entry v < horizon → ∃ u faces, start.dist.entry u = 0 ∧
    Walk net.UsableForward u faces v ∧ walkCost faces = state.dist.entry v

theorem Plain.grounded (plain : Plain start) : Grounded net start start where
  lower _ := Int.le_refl _
  attained v near := by
    cases plain v with
    | inl zero => exact ⟨v, [], zero, .nil v, zero.symm⟩
    | inr far => omega

theorem Plain.dist_le (plain : Plain start) (grounded : Grounded net start state) (v : Fin n) :
    state.dist.entry v ≤ horizon := by
  have lower := grounded.lower v
  have far : (0 : Int) ≤ horizon := by decide
  rcases plain v with zero | far <;> omega

theorem exists_face (member : arc ∈ net.openArcs) :
    ∃ face, net.UsableForward face ∧ face.tail = arc.tail ∧ face.head = arc.head ∧
      face.cost = arc.cost := by
  obtain ⟨inside, isOpen⟩ := Network.mem_openArcs.mp member
  obtain ⟨position, found⟩ := List.mem_iff_getElem?.mp inside
  exact ⟨arc.along position, (Network.usableForward_along_iff found).mpr isOpen, rfl, rfl, rfl⟩

theorem exists_arc {face : Residual n} (usable : net.UsableForward face) :
    ∃ arc ∈ net.openArcs, arc.tail = face.tail ∧ arc.head = face.head ∧ arc.cost = face.cost := by
  obtain ⟨⟨member, room⟩, forward⟩ := usable
  obtain ⟨position, arc, found, rfl | rfl⟩ := Network.mem_residuals.mp member
  · exact ⟨arc, Network.mem_openArcs.mpr ⟨List.mem_of_getElem? found, room⟩, rfl, rfl, rfl⟩
  · simp [Arc.against] at forward

theorem Grounded.round (plain : Plain start) (grounded : Grounded net start state) :
    Grounded net start (state.round net.openArcs) := by
  refine foldl_improve net.openArcs { state with moved := none }
    (motive := fun _ last => Grounded net start last) ?_ ?_ ⟨grounded.lower, grounded.attained⟩
  · intro last arc _ member grounded improves
    obtain ⟨reached, cheaper⟩ := improves
    obtain ⟨face, usable, tail, head, cost⟩ := exists_face member
    refine ⟨fun v => ?_, fun v near => ?_⟩
    · have lower := grounded.lower v
      by_cases here : v = arc.head
      · rw [here, dist_move_self]
        rw [here] at lower
        omega
      · rwa [dist_move_of_ne here]
    · by_cases here : v = arc.head
      · have bound := plain.dist_le grounded arc.tail
        obtain ⟨u, faces, zero, walk, sum⟩ := grounded.attained arc.tail (by omega)
        rw [here, dist_move_self, ← head]
        refine ⟨u, faces ++ [face], zero, walk.snoc tail usable, ?_⟩
        rw [walkCost_append, sum, ← cost]
        simp [walkCost]
      · rw [dist_move_of_ne here] at near ⊢
        exact grounded.attained v near
  · exact fun _ _ _ grounded _ => grounded

/-- A walk from a node at zero that never gets out of reach. -/
structure Near (net : Network n) (start : Relaxation n) (u : Fin n) (faces : List (Residual n))
    (v : Fin n) : Prop where
  zero : start.dist.entry u = 0
  walk : Walk net.UsableForward u faces v
  near : ∀ front rest x, faces = front ++ rest → Walk net.UsableForward u front x →
    start.dist.entry x = 0 ∨ walkCost front < horizon

theorem Near.of_snoc {u v : Fin n} {front : List (Residual n)} {face : Residual n}
    (near : Near net start u (front ++ [face]) v) :
    Near net start u front face.tail ∧ net.UsableForward face ∧ v = face.head := by
  obtain ⟨first, usable, same⟩ := near.walk.of_snoc
  refine ⟨⟨near.zero, first, fun front' rest x split => ?_⟩, usable, same⟩
  exact near.near front' (rest ++ [face]) x (by rw [split, List.append_assoc])

theorem Near.dist_lt {u v : Fin n} {faces : List (Residual n)} (near : Near net start u faces v)
    (grounded : Grounded net start state) (known : state.dist.entry v ≤ walkCost faces) :
    state.dist.entry v < horizon := by
  have lower := grounded.lower v
  have far : (0 : Int) < horizon := by decide
  rcases near.near faces [] v (List.append_nil _).symm near.walk with zero | bound <;> omega

/-- No walk of at most `k` arcs undercuts a distance. -/
def Covers (net : Network n) (start state : Relaxation n) (k : Nat) : Prop :=
  ∀ u faces v, Near net start u faces v → faces.length ≤ k → state.dist.entry v ≤ walkCost faces

theorem Covers.round {k : Nat} (grounded : Grounded net start state)
    (covers : Covers net start state k) : Covers net start (state.round net.openArcs) (k + 1) := by
  intro u faces v near short
  rcases List.eq_nil_or_concat' faces with rfl | ⟨front, face, rfl⟩
  · exact Int.le_trans (dist_round_le _ _ _) (covers u [] v near (Nat.zero_le k))
  · obtain ⟨first, usable, rfl⟩ := near.of_snoc
    rw [List.length_append, List.length_singleton] at short
    have known := covers u front face.tail first (by omega)
    obtain ⟨arc, member, tail, head, cost⟩ := exists_arc usable
    have reached := first.dist_lt grounded known
    rw [← tail] at known reached
    have step := dist_head_round_le member reached
    rw [← head, walkCost_append]
    simp only [walkCost, List.map_cons, List.map_nil, List.sum_cons, List.sum_nil] at known ⊢
    omega

def Tight (net : Network n) (state : Relaxation n) : Prop :=
  ∀ arc ∈ net.openArcs, state.dist.entry arc.tail < horizon →
    state.dist.entry arc.head ≤ state.dist.entry arc.tail + arc.cost

theorem tight_of_quiet (quiet : (state.round net.openArcs).moved = none) :
    Tight net (state.round net.openArcs) := by
  intro arc member reached
  rw [dist_round_of_quiet quiet] at reached
  have step := dist_head_round_le member reached
  rw [← dist_round_of_quiet quiet] at step
  exact step

theorem Tight.covers (tight : Tight net state) (grounded : Grounded net start state) (k : Nat) :
    Covers net start state k := by
  intro u faces v near short
  induction faces using List.reverseRecOn generalizing v with
  | nil =>
      obtain rfl := Walk.nil_iff.mp near.walk
      have lower := grounded.lower u
      have zero := near.zero
      change state.dist.entry u ≤ 0
      omega
  | append_singleton front face ih =>
      obtain ⟨first, usable, rfl⟩ := near.of_snoc
      rw [List.length_append, List.length_singleton] at short
      have known := ih face.tail first (by omega)
      obtain ⟨arc, member, tail, head, cost⟩ := exists_arc usable
      have reached := first.dist_lt grounded known
      rw [← tail] at known reached
      have step := tight arc member reached
      rw [← head, walkCost_append]
      simp only [walkCost, List.map_cons, List.map_nil, List.sum_cons, List.sum_nil] at known ⊢
      omega

/-- What rounds leave behind: no walk of at most as many arcs as there were rounds undercuts a
    distance, and if the last round moved nothing, none at all does. -/
inductive Settled (net : Network n) (start : Relaxation n) (count : Nat) : Relaxation n → Prop where
  | tight {last : Relaxation n} : Grounded net start last → Tight net last → last.moved = none →
    Settled net start count last
  | covered {last : Relaxation n} : Grounded net start last → Covers net start last count →
    (last.moved = none → count = 0) →
    (∀ v, last.moved = some v → ∃ k prev, count = k + 1 ∧ Covers net start prev k ∧
      last.dist.entry v < prev.dist.entry v) → Settled net start count last

theorem settled_rounds (plain : Plain start) (still : start.moved = none) (count : Nat) :
    Settled net start count (start.rounds net.openArcs count) := by
  have rest := rounds_rest net.openArcs start
    (motive := fun k last => Grounded net start last ∧ Covers net start last k ∧
      (last.moved = none → k = 0) ∧
      ∀ v, last.moved = some v → ∃ j prev, k = j + 1 ∧ Covers net start prev j ∧
        last.dist.entry v < prev.dist.entry v) ?_ ?_ count
  · generalize start.rounds net.openArcs count = last at rest
    cases rest with
    | quiet holds quiet => exact .tight (holds.1.round plain) (tight_of_quiet quiet) quiet
    | full holds => exact .covered holds.1 holds.2.1 holds.2.2.1 holds.2.2.2
  · rintro k prev ⟨grounded, covers, _⟩ moved
    exact ⟨grounded.round plain, covers.round grounded, fun quiet => absurd quiet moved,
      fun v moved => ⟨k, prev, rfl, covers, dist_round_lt moved⟩⟩
  · refine ⟨plain.grounded, fun u faces v near short => ?_, fun _ => rfl, by simp [still]⟩
    obtain rfl := List.length_eq_zero_iff.mp (Nat.le_zero.mp short)
    obtain rfl := Walk.nil_iff.mp near.walk
    exact Int.le_of_eq near.zero

theorem Settled.grounded {count : Nat} (settled : Settled net start count state) :
    Grounded net start state := by
  cases settled with
  | tight grounded _ _ => exact grounded
  | covered grounded _ _ _ => exact grounded

theorem Settled.covers {count : Nat} (settled : Settled net start count state) :
    Covers net start state count := by
  cases settled with
  | tight grounded tight _ => exact tight.covers grounded count
  | covered _ covers _ _ => exact covers

end Relaxation

end MinCostFlow
