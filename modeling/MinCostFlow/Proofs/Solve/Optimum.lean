import MinCostFlow.Proofs.Solve.Course

/-! # What a finished solve has found

On a network that carried nothing at the outset, a course that is over carries as much as the
cap and the arcs allow. It does so as cheaply as possible if no closed walk of negative cost
was there at the outset, not even out of reach; and any two such courses carry as much for as
much, for where they differ all prices are fair.
-/

namespace MinCostFlow

open Network Frontier

variable {n : Nat} {start : Network n} {source sink : Fin n}

namespace Network.Fresh

theorem withinCapacity (fresh : start.Fresh) : start.WithinCapacity := by
  intro arc member
  rw [fresh arc member]
  exact ⟨Int.le_refl 0, Int.natCast_nonneg _⟩

theorem usable_eq (fresh : start.Fresh) : start.Usable = start.UsableForward := by
  funext face
  apply propext
  constructor
  · intro usable
    obtain ⟨arc, found, side⟩ := arc_of_mem usable.1
    have room := usable.2
    cases side with
    | inl along =>
        refine ⟨usable, ?_⟩
        rw [along]
        rfl
    | inr against =>
        rw [against] at room
        simp [Arc.against, fresh arc (List.mem_of_getElem? found)] at room
  · exact fun usable => usable.1

theorem carries (fresh : start.Fresh) (source sink : Fin n) : start.Carries source sink 0 where
  within := fresh.withinCapacity
  supplied := fresh.exactBalance_eq_zero source
  received := fresh.exactBalance_eq_zero sink
  kept v _ _ := fresh.exactBalance_eq_zero v

theorem exists_largest (fresh : start.Fresh) (source sink : Fin n) :
    ∃ largest, start.IsMaximum source sink largest :=
  exists_isMaximum (fresh.carries source sink)

end Network.Fresh

/-- A flow that leaves no closed walk of negative cost to be used is cheapest. -/
theorem Network.Carries.isCheapest {net : Network n} {value : Int}
    (carries : net.Carries source sink value) (harmless : ∀ u, ¬ NegativeCycleAt net.Usable u) :
    net.IsCheapest source sink value := by
  intro other same others
  obtain ⟨potential, fair⟩ := exists_fair_prices carries.within (fun _ usable => usable) harmless
  refine totalCost_le potential same others.within (fun v => ?_) fun _ _ _ _ _ _ face _ => fair face
  by_cases here : v = source
  · rw [here, carries.supplied, others.supplied]
  · by_cases there : v = sink
    · rw [there, carries.received, others.received]
    · rw [carries.kept v here there, others.kept v here there]

namespace Course

variable {limit : Option Int} {course left right : Course n} {maximum : Int}

theorem Sound.carries (sound : Sound start source sink limit course) (fresh : start.Fresh)
    (apart : source ≠ sink) : course.network.Carries source sink course.flow where
  within := sound.within
  supplied := by
    rw [sound.balance, fresh.exactBalance_eq_zero, if_pos rfl, if_neg apart.symm]
    omega
  received := by
    rw [sound.balance, fresh.exactBalance_eq_zero, if_pos rfl, if_neg apart]
    omega
  kept v inner outer := by
    rw [sound.balance, fresh.exactBalance_eq_zero, if_neg inner.symm, if_neg outer.symm]
    rfl

/-- As much flows as the cap and the arcs allow. -/
theorem Over.flow_eq (ended : Over source sink limit course)
    (sound : Sound start source sink limit course) (fresh : start.Fresh) (apart : source ≠ sink)
    (largest : start.IsMaximum source sink maximum) :
    course.flow = limit.elim maximum fun bound => min bound maximum := by
  have carries := sound.carries fresh apart
  have upper : course.flow ≤ maximum := largest.2 course.network course.flow sound.same carries
  have exhausted : ¬ Reaches course.network.Usable source sink → maximum ≤ course.flow := by
    intro stuck
    obtain ⟨other, same, others⟩ := largest.1
    exact value_le_of_not_reaches carries stuck (same.trans sound.same.symm) others
  cases cap : limit with
  | none =>
      cases ended with
      | inl stuck => exact le_antisymm upper (exhausted stuck)
      | inr met => simp [cap] at met
  | some bound =>
      have capped := sound.capped bound cap
      cases ended with
      | inl stuck =>
          have lower := exhausted stuck
          simp only [Option.elim]
          omega
      | inr met =>
          rw [cap] at met
          obtain rfl := Option.some.inj met
          exact (min_eq_left upper).symm

/-- Outside of the region that the source reached at the outset, closed walks are the old ones;
    inside, fair prices rule out negative ones. -/
theorem Sound.not_negativeCycleAt (sound : Sound start source sink limit course)
    (harmless : ∀ u, ¬ NegativeCycleAt start.Usable u) (u : Fin n) :
    ¬ NegativeCycleAt course.network.Usable u := by
  by_cases inside : Reaches start.Usable source u
  · obtain ⟨potential, fair⟩ := sound.exists_fair fun u _ => harmless u
    apply Network.not_negativeCycleAt potential
    intro face usable onward
    obtain ⟨_, walk⟩ := onward
    exact fair face usable (walk.mem_of_closed sound.closed inside)
  · rintro ⟨faces, walk, negative⟩
    refine harmless u ⟨faces, ?_, negative⟩
    have old : ∀ {x v faces}, Walk course.network.Usable x faces v → ¬ Reaches start.Usable source v →
        Walk start.Usable x faces v := by
      intro x v faces walk outside
      induction walk with
      | nil => exact .nil _
      | cons usable rest ih =>
          refine .cons (sound.agree.usable sound.same usable fun both => ?_) (ih outside)
          exact outside (rest.mem_of_closed sound.closed both.2)
    exact old walk inside

theorem Sound.isCheapest (sound : Sound start source sink limit course) (fresh : start.Fresh)
    (apart : source ≠ sink) (harmless : ∀ u, ¬ NegativeCycleAt start.Usable u) :
    course.network.IsCheapest source sink course.flow :=
  (sound.carries fresh apart).isCheapest (sound.not_negativeCycleAt harmless)

theorem Sound.totalCost_le (sound : Sound start source sink limit left)
    (other : Sound start source sink limit right) (harmless : Harmless start source)
    (flow : right.flow = left.flow) : left.network.totalCost ≤ right.network.totalCost := by
  obtain ⟨potential, fair⟩ := sound.exists_fair harmless
  refine Network.totalCost_le potential (other.same.trans sound.same.symm)
    other.within (fun v => ?_) ?_
  · rw [sound.balance, other.balance, flow]
  · intro position arc second found again differ face side usable
    obtain ⟨before, there, tail, head, _⟩ := getElem?_of_sameArcs sound.same found
    have inside : Reaches start.Usable source before.tail ∧ Reaches start.Usable source before.head := by
      by_contra outside
      have kept := sound.agree position before there outside
      have held := other.agree position before there outside
      rw [found] at kept
      rw [again] at held
      exact differ (by rw [Option.some.inj kept, Option.some.inj held])
    rw [tail, head] at inside
    apply fair face usable
    cases side with
    | inl along => exact along ▸ inside.1
    | inr against => exact against ▸ inside.2

theorem Over.answer_eq (ended : Over source sink limit left) (finished : Over source sink limit right)
    (sound : Sound start source sink limit left) (other : Sound start source sink limit right)
    (fresh : start.Fresh) (apart : source ≠ sink) (harmless : Harmless start source) :
    left.flow = right.flow ∧ left.cost = right.cost := by
  obtain ⟨largest, maximum⟩ := fresh.exists_largest source sink
  have flow : left.flow = right.flow :=
    (ended.flow_eq sound fresh apart maximum).trans (finished.flow_eq other fresh apart maximum).symm
  have lower := sound.totalCost_le other harmless flow.symm
  have upper := other.totalCost_le sound harmless flow
  rw [sound.cost, other.cost] at lower upper
  exact ⟨flow, by omega⟩

end Course

end MinCostFlow
