import MinCostFlow.Network.Balance
import MinCostFlow.Proofs.Flow.Duality

/-! # Balances in words

The words of the balances are those of the exact balances, as long as every number of every arc
fits a word. A flow within the capacities fits where these do. So two such flows on the same
arcs that leave the same balances pass the check after a solve both or neither.
-/

namespace MinCostFlow

variable {n : Nat}

namespace Word

theorem wrap_add_wrap_right (left right : Int) : wrap (left + wrap right) = wrap (left + right) := by
  rw [Int.add_comm, wrap_add_wrap, Int.add_comm]

theorem mapM_store {α : Type} (number : α → Int) (items : List α) :
    items.mapM (fun item => store (number item)) =
      if ∀ item ∈ items, Fits (number item) then .ok (items.map number) else .error .tooWide := by
  induction items with
  | nil => rfl
  | cons item rest ih =>
      rw [List.mapM_cons, ih, store]
      by_cases first : Fits (number item)
      · by_cases others : ∀ item ∈ rest, Fits (number item)
        · have all : ∀ other ∈ item :: rest, Fits (number other) :=
            List.forall_mem_cons.mpr ⟨first, others⟩
          rw [if_pos first, if_pos others, if_pos all]
          rfl
        · have wide : ¬ ∀ other ∈ item :: rest, Fits (number other) := fun all =>
            others (List.forall_mem_cons.mp all).2
          rw [if_pos first, if_neg others, if_neg wide]
          rfl
      · have wide : ¬ ∀ other ∈ item :: rest, Fits (number other) := fun all =>
          first (List.forall_mem_cons.mp all).1
        rw [if_neg first, if_neg wide]
        rfl

end Word

/-- Every number of the arc fits a word. -/
structure Arc.Storable (arc : Arc n) : Prop where
  tail : Word.Fits arc.tail.val
  head : Word.Fits arc.head.val
  capacity : Word.Fits arc.capacity
  cost : Word.Fits arc.cost
  flow : Word.Fits arc.flow

namespace Network

variable {net other : Network n} {source sink : Fin n} {amount : Int}

/-- All numbers of all arcs fit words. -/
def Storable (net : Network n) : Prop := ∀ arc ∈ net.arcs, arc.Storable

theorem columns_cases (net : Network n) :
    (net.Storable ∧ ∃ columns, net.columns = .ok columns) ∨
      (¬ net.Storable ∧ net.columns = .error .tooWide) := by
  rw [columns]
  simp only [Word.mapM_store]
  by_cases tail : ∀ arc ∈ net.arcs, Word.Fits arc.tail.val
  · by_cases head : ∀ arc ∈ net.arcs, Word.Fits arc.head.val
    · by_cases capacity : ∀ arc ∈ net.arcs, Word.Fits arc.capacity
      · by_cases cost : ∀ arc ∈ net.arcs, Word.Fits arc.cost
        · by_cases flow : ∀ arc ∈ net.arcs, Word.Fits arc.flow
          · left
            rw [if_pos tail, if_pos head, if_pos capacity, if_pos cost, if_pos flow]
            exact ⟨fun arc member => ⟨tail arc member, head arc member, capacity arc member,
              cost arc member, flow arc member⟩, _, rfl⟩
          · right
            rw [if_pos tail, if_pos head, if_pos capacity, if_pos cost, if_neg flow]
            exact ⟨fun all => flow fun arc member => (all arc member).flow, rfl⟩
        · right
          rw [if_pos tail, if_pos head, if_pos capacity, if_neg cost]
          exact ⟨fun all => cost fun arc member => (all arc member).cost, rfl⟩
      · right
        rw [if_pos tail, if_pos head, if_neg capacity]
        exact ⟨fun all => capacity fun arc member => (all arc member).capacity, rfl⟩
    · right
      rw [if_pos tail, if_neg head]
      exact ⟨fun all => head fun arc member => (all arc member).head, rfl⟩
  · right
    rw [if_neg tail]
    exact ⟨fun all => tail fun arc member => (all arc member).tail, rfl⟩

theorem post_wrap (sums : PerNode Int n) (v : Fin n) (amount : Int) :
    post sums v (Word.wrap amount) = post sums v amount := by
  rw [post, Word.wrap_add_wrap_right, post]

theorem entry_post (sums : PerNode Int n) (v w : Fin n) (amount : Int) :
    (post sums v amount).entry w =
      if v = w then Word.wrap (sums.entry w + amount) else sums.entry w := by
  rw [post, PerNode.entry_put]
  split
  · rename_i same
    rw [same]
  · rfl

/-- Posting amounts one by one leaves the words of the exact sums. -/
theorem entry_foldl_post (place : Arc n → Fin n) (amount : Arc n → Int) (arcs : List (Arc n))
    (sums : PerNode Int n) (exact : Fin n → Int) (words : ∀ v, sums.entry v = Word.wrap (exact v))
    (v : Fin n) :
    (arcs.foldl (fun sums arc => post sums (place arc) (amount arc)) sums).entry v =
      Word.wrap (exact v + (arcs.map fun arc => if place arc = v then amount arc else 0).sum) := by
  induction arcs generalizing sums exact with
  | nil =>
      rw [List.foldl_nil, words, List.map_nil, List.sum_nil, Int.add_zero]
  | cons arc rest ih =>
      rw [List.foldl_cons, ih _ fun v => exact v + if place arc = v then amount arc else 0]
      · rw [List.map_cons, List.sum_cons, Int.add_assoc]
      · intro w
        rw [entry_post, words]
        split
        · rw [Word.wrap_add_wrap]
        · rw [Int.add_zero]

theorem balances_cases (net : Network n) :
    (net.Storable ∧ ∃ words, net.balances = .ok words ∧
        ∀ v, words.entry v = Word.wrap (net.exactBalance v)) ∨
      (¬ net.Storable ∧ net.balances = .error .tooWide) := by
  rcases net.columns_cases with ⟨storable, columns, stored⟩ | ⟨wide, failed⟩
  · left
    rw [balances, stored]
    refine ⟨storable, _, rfl, fun v => ?_⟩
    simp only [post_wrap]
    have left (w : Fin n) := entry_foldl_post (fun arc => arc.tail) (fun arc => -arc.flow) net.arcs
      (.all n 0) (fun _ => 0) (fun _ => PerNode.entry_all 0 _) w
    rw [entry_foldl_post (fun arc => arc.head) (fun arc => arc.flow) net.arcs _ _ left v,
      exactBalance_eq_sum, Int.zero_add, ← List.sum_map_add]
    congr 2
    apply List.map_congr_left
    intro arc _
    unfold Arc.credit
    split <;> split <;> omega
  · right
    rw [balances, failed]
    exact ⟨wide, rfl⟩

theorem Storable.of_sameArcs (storable : net.Storable) (same : SameArcs other net)
    (within : other.WithinCapacity) : other.Storable := by
  intro arc member
  obtain ⟨position, found⟩ := List.mem_iff_getElem?.mp member
  obtain ⟨before, there, tail, head, capacity, cost⟩ := getElem?_of_sameArcs same found
  have fits := storable before (List.mem_of_getElem? there)
  have bounds := within arc member
  have wide : Word.Fits arc.capacity := capacity ▸ fits.capacity
  refine ⟨tail ▸ fits.tail, head ▸ fits.head, wide, cost ▸ fits.cost, ?_⟩
  unfold Word.Fits at wide ⊢
  omega

theorem storable_iff_of_sameArcs {other : Network n} (same : SameArcs other net)
    (within : net.WithinCapacity) (fitting : other.WithinCapacity) : other.Storable ↔ net.Storable :=
  ⟨fun storable => storable.of_sameArcs same.symm within, fun storable => storable.of_sameArcs same fitting⟩

theorem balances_eq (same : SameArcs other net) (within : net.WithinCapacity)
    (fitting : other.WithinCapacity) (balanced : ∀ v, other.exactBalance v = net.exactBalance v) :
    other.balances = net.balances := by
  rcases net.balances_cases with ⟨storable, words, found, exact⟩ | ⟨wide, failed⟩
  · rcases other.balances_cases with ⟨_, others, again, precise⟩ | ⟨wide, _⟩
    · rw [found, again]
      congr 1
      apply PerNode.ext
      intro v
      rw [exact, precise, balanced]
    · exact absurd (storable.of_sameArcs same fitting) wide
  · rcases other.balances_cases with ⟨storable, _⟩ | ⟨_, fails⟩
    · exact absurd (storable.of_sameArcs same.symm within) wide
    · rw [failed, fails]

/-- What the balance of a node should be when `amount` units go from source to sink. -/
def demand (source sink : Fin n) (amount : Int) (v : Fin n) : Int :=
  if sink = v then amount else if source = v then -amount else 0

theorem expectedBalances_cases (source sink : Fin n) (amount : Int) :
    (Word.Fits amount ∧ Word.Fits (-amount) ∧ ∃ words,
        expectedBalances n source.val sink.val amount = .ok words ∧
          ∀ v, words.entry v = demand source sink amount v) ∨
      (¬ (Word.Fits amount ∧ Word.Fits (-amount)) ∧
        expectedBalances n source.val sink.val amount = .error .tooWide) := by
  rw [expectedBalances, balanceSlot_natCast, balanceSlot_natCast]
  by_cases supply : Word.Fits (-amount)
  · by_cases receipt : Word.Fits amount
    · left
      rw [Word.store, if_pos supply, Word.store, if_pos receipt]
      refine ⟨receipt, supply, _, rfl, fun v => ?_⟩
      simp only [PerNode.entry_put, PerNode.entry_all, demand]
    · right
      rw [Word.store, if_pos supply, Word.store, if_neg receipt]
      exact ⟨fun both => receipt both.1, rfl⟩
  · right
    rw [Word.store, if_neg supply]
    exact ⟨fun both => supply both.2, rfl⟩

/-- The check after a solve compares the words of the exact balances with what is demanded, as
    long as every number fits a word. -/
theorem imbalance?_cases (net : Network n) (source sink : Fin n) (amount : Int) :
    ((net.Storable ∧ Word.Fits amount ∧ Word.Fits (-amount)) ∧
        net.imbalance? source.val sink.val amount = .ok ((List.finRange n).findSome? fun v =>
          if Word.wrap (net.exactBalance v) = demand source sink amount v then none
          else some
            { node := v
              balance := Word.wrap (net.exactBalance v)
              expected := demand source sink amount v })) ∨
      (¬ (net.Storable ∧ Word.Fits amount ∧ Word.Fits (-amount)) ∧
        net.imbalance? source.val sink.val amount = .error .tooWide) := by
  rw [imbalance?]
  rcases expectedBalances_cases source sink amount with
    ⟨receipt, supply, expected, demanded, due⟩ | ⟨wide, failed⟩
  · rcases net.balances_cases with ⟨storable, words, found, exact⟩ | ⟨wide, failed⟩
    · left
      refine ⟨⟨storable, receipt, supply⟩, ?_⟩
      rw [demanded, found]
      simp only [bind, Except.bind, pure, Except.pure, exact, due]
    · right
      rw [demanded, failed]
      exact ⟨fun all => wide all.1, rfl⟩
  · right
    rw [failed]
    exact ⟨fun all => wide all.2, rfl⟩

theorem verifyConservation_eq (same : SameArcs other net) (within : net.WithinCapacity)
    (fitting : other.WithinCapacity) (balanced : ∀ v, other.exactBalance v = net.exactBalance v)
    (source sink total : Int) :
    other.verifyConservation source sink total = net.verifyConservation source sink total := by
  rw [verifyConservation, imbalance?, balances_eq same within fitting balanced]
  rfl

end Network

end MinCostFlow
