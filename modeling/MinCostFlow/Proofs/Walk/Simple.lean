import Mathlib.Data.Fintype.Card
import Mathlib.Data.List.Nodup
import MinCostFlow.Network.Walk

/-! # Walks that visit no node twice

Closed pieces can be cut out of a walk until no node is left that it visits twice. What
is cut out costs at least nothing when no closed walk in reach costs less, so the cheapest
walks are to be found among those that visit no node twice, and these have fewer faces
than there are nodes.
-/

namespace MinCostFlow

variable {n : Nat}

/-- The nodes of a row of faces that begins at `u`, first one first. -/
def visits (u : Fin n) (faces : List (Residual n)) : List (Fin n) := u :: faces.map Residual.head

@[simp] theorem visits_nil (u : Fin n) : visits u [] = [u] := rfl

@[simp] theorem visits_cons (u : Fin n) (face : Residual n) (rest : List (Residual n)) :
    visits u (face :: rest) = u :: visits face.head rest := rfl

theorem visits_append (u : Fin n) (front rest : List (Residual n)) :
    visits u (front ++ rest) = visits u front ++ rest.map Residual.head := by
  simp [visits]

theorem head_mem_visits (u : Fin n) {face : Residual n} {faces : List (Residual n)}
    (member : face ∈ faces) : face.head ∈ visits u faces :=
  List.mem_cons_of_mem _ (List.mem_map_of_mem member)

theorem walkCost_append (front rest : List (Residual n)) :
    walkCost (front ++ rest) = walkCost front + walkCost rest := by
  simp [walkCost]

theorem reducedWalkCost_append (potential : Potential) (front rest : List (Residual n)) :
    reducedWalkCost potential (front ++ rest) =
      reducedWalkCost potential front + reducedWalkCost potential rest := by
  simp [reducedWalkCost]

theorem length_lt_of_nodup {u : Fin n} {faces : List (Residual n)}
    (simple : (visits u faces).Nodup) : faces.length < n := by
  have bound := simple.length_le_card
  simp only [visits, List.length_cons, List.length_map, Fintype.card_fin] at bound
  omega

theorem nodup_visits_left {u : Fin n} {front rest : List (Residual n)}
    (simple : (visits u (front ++ rest)).Nodup) : (visits u front).Nodup := by
  refine simple.sublist ?_
  simp only [visits, List.map_append]
  exact (List.sublist_append_left _ _).cons_cons u

theorem nodup_visits_snoc {u : Fin n} {front : List (Residual n)} {face : Residual n}
    (simple : (visits u front).Nodup) (fresh : face.head ∉ visits u front) :
    (visits u (front ++ [face])).Nodup := by
  rw [visits, List.map_append, ← List.cons_append]
  refine List.nodup_append.mpr ⟨simple, List.nodup_singleton _, fun x visited y last same => ?_⟩
  rw [List.map_singleton, List.mem_singleton] at last
  exact fresh (last ▸ same ▸ visited)

namespace Walk

variable {allowed : Residual n → Prop} {u v w : Fin n} {faces front rest : List (Residual n)}

theorem nodup_visits_right (walk : Walk allowed u front v)
    (simple : (visits u (front ++ rest)).Nodup) : (visits v rest).Nodup := by
  induction walk with
  | nil => exact simple
  | cons _ _ ih => exact ih (List.nodup_cons.mp simple).2

theorem nil_iff : Walk allowed u [] v ↔ u = v := by
  constructor
  · intro walk
    cases walk
    rfl
  · rintro rfl
    exact .nil u

theorem cons_iff {face : Residual n} :
    Walk allowed u (face :: rest) v ↔
      u = face.tail ∧ allowed face ∧ Walk allowed face.head rest v := by
  constructor
  · intro walk
    generalize row : face :: rest = faces at walk
    cases walk with
    | nil => simp at row
    | cons fits walk =>
        obtain ⟨rfl, rfl⟩ := List.cons.inj row
        exact ⟨rfl, fits, walk⟩
  · rintro ⟨rfl, fits, walk⟩
    exact .cons fits walk

theorem end_unique (left : Walk allowed u faces v) (right : Walk allowed u faces w) : v = w := by
  induction left with
  | nil => exact nil_iff.mp right
  | cons _ _ ih => exact ih (cons_iff.mp right).2.2

theorem end_mem_visits (walk : Walk allowed u faces v) : v ∈ visits u faces := by
  induction walk with
  | nil => exact List.mem_cons_self
  | cons _ _ ih => exact List.mem_cons_of_mem _ ih

theorem getLast?_visits (walk : Walk allowed u faces v) : (visits u faces).getLast? = some v := by
  induction walk with
  | nil => rfl
  | cons _ _ ih => rw [visits_cons, visits, List.getLast?_cons_cons, ← visits, ih]

theorem map_tail_eq (walk : Walk allowed u faces v) :
    faces.map Residual.tail = (visits u faces).dropLast := by
  induction walk with
  | nil => rfl
  | cons _ _ ih => rw [List.map_cons, ih, visits_cons, visits, List.dropLast_cons_cons]

theorem mem_visits_iff (walk : Walk allowed u faces w) :
    v ∈ visits u faces ↔ ∃ front rest, faces = front ++ rest ∧ Walk allowed u front v := by
  constructor
  · intro visited
    induction walk with
    | nil u =>
        obtain rfl : v = u := by simpa using visited
        exact ⟨[], [], rfl, .nil v⟩
    | @cons face rest w fits _ ih =>
        rcases List.mem_cons.mp visited with rfl | visited
        · exact ⟨[], face :: rest, rfl, .nil _⟩
        · obtain ⟨front, back, rfl, walk⟩ := ih visited
          exact ⟨face :: front, back, rfl, .cons fits walk⟩
  · rintro ⟨front, rest, rfl, first⟩
    have visited := first.end_mem_visits
    simp only [visits, List.map_append, List.mem_cons, List.mem_append] at visited ⊢
    exact visited.imp_right .inl

theorem tail_mem_visits (walk : Walk allowed u faces v) {face : Residual n}
    (member : face ∈ faces) : face.tail ∈ visits u faces := by
  induction walk with
  | nil => simp at member
  | cons _ _ ih =>
      rcases List.mem_cons.mp member with rfl | member
      · exact List.mem_cons_self
      · exact List.mem_cons_of_mem _ (ih member)

theorem of_snoc {face : Residual n} (walk : Walk allowed u (front ++ [face]) v) :
    Walk allowed u front face.tail ∧ allowed face ∧ v = face.head := by
  obtain ⟨x, left, right⟩ := walk.split
  obtain ⟨rfl, fits, right⟩ := cons_iff.mp right
  exact ⟨left, fits, (nil_iff.mp right).symm⟩

theorem snoc {face : Residual n} (walk : Walk allowed u front v) (tail : face.tail = v)
    (fits : allowed face) : Walk allowed u (front ++ [face]) face.head := by
  subst tail
  exact walk.append (.single fits)

theorem of_mem {wider : Residual n → Prop} (walk : Walk allowed u faces v)
    (fits : ∀ face ∈ faces, wider face) : Walk wider u faces v := by
  induction walk with
  | nil => exact .nil _
  | cons _ _ ih =>
      obtain ⟨first, others⟩ := List.forall_mem_cons.mp fits
      exact .cons first (ih others)

/-- If at most one allowed face leads to each node and none to the first, then at most one walk
    leads to each node. -/
theorem eq_of_single {others : List (Residual n)}
    (single : ∀ left right, allowed left → allowed right → left.head = right.head → left = right)
    (away : ∀ face, allowed face → face.head ≠ u) (left : Walk allowed u faces v)
    (right : Walk allowed u others v) : faces = others := by
  induction faces using List.reverseRecOn generalizing others v with
  | nil =>
      obtain rfl := nil_iff.mp left
      rcases List.eq_nil_or_concat' others with rfl | ⟨front, last, rfl⟩
      · rfl
      · obtain ⟨_, allowed, back⟩ := right.of_snoc
        exact absurd back.symm (away last allowed)
  | append_singleton front face ih =>
      obtain ⟨before, fits, rfl⟩ := left.of_snoc
      rcases List.eq_nil_or_concat' others with rfl | ⟨other, last, rfl⟩
      · exact absurd (nil_iff.mp right).symm (away face fits)
      · obtain ⟨earlier, suits, same⟩ := right.of_snoc
        obtain rfl := single face last fits suits same
        rw [ih before earlier]

theorem nodup_of_single
    (single : ∀ left right, allowed left → allowed right → left.head = right.head → left = right)
    (away : ∀ face, allowed face → face.head ≠ u) (walk : Walk allowed u faces v) :
    (visits u faces).Nodup := by
  induction faces using List.reverseRecOn generalizing v with
  | nil => exact List.nodup_singleton _
  | append_singleton front face ih =>
      obtain ⟨before, fits, rfl⟩ := walk.of_snoc
      have fresh : face.head ∉ visits u front := by
        intro again
        obtain ⟨short, rest, split, early⟩ := before.mem_visits_iff.mp again
        have same := eq_of_single single away walk early
        rw [split] at same
        have lengths := congrArg List.length same
        simp only [List.length_append, List.length_singleton] at lengths
        omega
      exact nodup_visits_snoc (ih before) fresh

theorem mem_of_closed {region : Fin n → Prop} (walk : Walk allowed u faces v)
    (closed : ∀ face, allowed face → region face.tail → region face.head) (begins : region u) :
    region v := by
  induction walk with
  | nil => exact begins
  | cons fits _ ih => exact ih (closed _ fits begins)

theorem tail_mem_of_closed {region : Fin n → Prop} (walk : Walk allowed u faces v)
    (closed : ∀ face, allowed face → region face.tail → region face.head) (begins : region u)
    {face : Residual n} (member : face ∈ faces) : region face.tail := by
  obtain ⟨front, _, _, first⟩ := walk.mem_visits_iff.mp (walk.tail_mem_visits member)
  exact first.mem_of_closed closed begins

/-- Cut the closed pieces out of a walk. -/
theorem exists_simple (walk : Walk allowed u faces v) :
    ∃ short, Walk allowed u short v ∧ (visits u short).Nodup ∧
      ((∀ x, Network.Reaches allowed u x → ¬ Network.NegativeCycleAt allowed x) →
        walkCost short ≤ walkCost faces) := by
  induction walk with
  | nil u => exact ⟨[], .nil u, by simp, fun _ => Int.le_refl _⟩
  | @cons face rest v fits _ ih =>
      obtain ⟨short, walk, simple, cheaper⟩ := ih
      have later : (∀ x, Network.Reaches allowed face.tail x → ¬ Network.NegativeCycleAt allowed x) →
          walkCost short ≤ walkCost rest := fun harmless =>
        cheaper fun x reached => harmless x (Network.Reaches.trans ⟨[face], .single fits⟩ reached)
      by_cases again : face.tail ∈ visits face.head short
      · -- the walk comes back to where it began: drop everything up to there
        obtain ⟨loop, back, rfl, around⟩ := walk.mem_visits_iff.mp again
        obtain ⟨x, left, right⟩ := walk.split
        obtain rfl := around.end_unique left
        refine ⟨back, right, around.nodup_visits_right simple, fun harmless => ?_⟩
        have bound := later harmless
        have costly : ¬ walkCost (face :: loop) < 0 := fun negative =>
          harmless face.tail (Network.reaches_self _ _) ⟨face :: loop, .cons fits around, negative⟩
        rw [walkCost_append] at bound
        simp only [walkCost, List.map_cons, List.sum_cons] at bound costly ⊢
        omega
      · refine ⟨face :: short, .cons fits walk, ?_, fun harmless => ?_⟩
        · rw [visits_cons]
          exact List.nodup_cons.mpr ⟨again, simple⟩
        · have bound := later harmless
          simp only [walkCost, List.map_cons, List.sum_cons] at bound ⊢
          omega

end Walk

end MinCostFlow
