import Mathlib.Data.List.Sort
import MinCostFlow.Network.Walk
import MinCostFlow.Search

/-! # What one step of a search can do

Looking at a face either leaves the frontier as it is, or gives the head of the face a new
label and a place in the queue, or finds that the way has grown too long. From this one
case distinction come the principles for a whole node and for a whole search: what every
new label keeps, the search keeps.
-/

namespace MinCostFlow

variable {n : Nat}

theorem Potential.entry_eq_price {potential : Potential} (size : potential.size = n) (v : Fin n) :
    Position.entry potential (v.val : Int) = .ok (potential.price v) := by
  have bound : v.val < potential.size := by omega
  rw [Position.entry_natCast bound]
  simp [Potential.price, bound]

instance Entry.before_total : Std.Total (Entry.Before (n := n)) where
  total left right := by
    unfold Before
    omega

instance Entry.before_trans : IsTrans (Entry n) Entry.Before where
  trans first second third left right := by
    unfold Before at *
    omega

theorem Queue.insert_eq_orderedInsert (entry : Entry n) (queue : Queue n) :
    queue.insert entry = queue.orderedInsert Entry.Before entry :=
  (List.orderedInsert_eq_take_drop _ _ _).symm

namespace Frontier

variable {net : Network n} {potential : Potential} {frontier next : Frontier n} {entry : Entry n}

def dist (frontier : Frontier n) (v : Fin n) : Int := (frontier.labels.entry v).dist

def hops (frontier : Frontier n) (v : Fin n) : Nat := (frontier.labels.entry v).hops

/-- A node waits while its distance stands in the queue. Entries with older distances do
    not count. -/
def Waits (frontier : Frontier n) (v : Fin n) : Prop :=
  ∃ entry ∈ frontier.queue, entry.node = v ∧ entry.dist = frontier.dist v

theorem not_waits_of_empty (empty : frontier.queue = []) (v : Fin n) : ¬ frontier.Waits v := by
  intro waits
  obtain ⟨entry, member, _⟩ := waits
  rw [empty] at member
  simp at member

/-- The distance that the node of `entry` has to offer to the head of a face. -/
def offer (potential : Potential) (entry : Entry n) (face : Residual n) : Int :=
  entry.dist + face.reducedCost potential

/-- A face that leaves the node of `entry`, has room, and leads to its head more cheaply. -/
structure Improves (potential : Potential) (entry : Entry n) (frontier : Frontier n)
    (face : Residual n) : Prop where
  tail : face.tail = entry.node
  room : 0 < face.room
  cheaper : offer potential entry face < frontier.dist face.head

def offered (potential : Potential) (entry : Entry n) (frontier : Frontier n)
    (step : Residual n × Nat) : Label :=
  (frontier.labels.entry entry.node).extend (offer potential entry step.1) ⟨entry.name, step.2⟩ step.1

/-- The frontier after the head of a face has taken the label that the face offers. -/
def relabel (potential : Potential) (entry : Entry n) (frontier : Frontier n)
    (step : Residual n × Nat) : Frontier n where
  labels := frontier.labels.put step.1.head (offered potential entry frontier step)
  queue := frontier.queue.insert { dist := offer potential entry step.1, node := step.1.head }

section relabel

variable {step : Residual n × Nat}

theorem label_relabel_self :
    (relabel potential entry frontier step).labels.entry step.1.head =
      offered potential entry frontier step := by
  simp [relabel]

theorem label_relabel_of_ne {v : Fin n} (other : v ≠ step.1.head) :
    (relabel potential entry frontier step).labels.entry v = frontier.labels.entry v := by
  rw [relabel, PerNode.entry_put_of_ne _ other.symm]

@[simp] theorem dist_relabel_self :
    (relabel potential entry frontier step).dist step.1.head = offer potential entry step.1 := by
  rw [dist, label_relabel_self]
  rfl

theorem dist_relabel_of_ne {v : Fin n} (other : v ≠ step.1.head) :
    (relabel potential entry frontier step).dist v = frontier.dist v := by
  rw [dist, label_relabel_of_ne other, dist]

@[simp] theorem hops_relabel_self :
    (relabel potential entry frontier step).hops step.1.head = frontier.hops entry.node + 1 := by
  rw [hops, label_relabel_self]
  rfl

theorem hops_relabel_of_ne {v : Fin n} (other : v ≠ step.1.head) :
    (relabel potential entry frontier step).hops v = frontier.hops v := by
  rw [hops, label_relabel_of_ne other, hops]

theorem dist_relabel_le (improves : Improves potential entry frontier step.1) (v : Fin n) :
    (relabel potential entry frontier step).dist v ≤ frontier.dist v := by
  by_cases here : v = step.1.head
  · rw [here, dist_relabel_self]
    exact Int.le_of_lt improves.cheaper
  · exact Int.le_of_eq (dist_relabel_of_ne here)

theorem mem_queue_relabel {waiting : Entry n} :
    waiting ∈ (relabel potential entry frontier step).queue ↔
      waiting = { dist := offer potential entry step.1, node := step.1.head } ∨
        waiting ∈ frontier.queue := by
  rw [relabel, Queue.insert_eq_orderedInsert, List.mem_orderedInsert]

theorem waits_relabel_self : (relabel potential entry frontier step).Waits step.1.head :=
  ⟨_, mem_queue_relabel.mpr (.inl rfl), rfl, dist_relabel_self.symm⟩

theorem waits_relabel_iff {v : Fin n} (other : v ≠ step.1.head) :
    (relabel potential entry frontier step).Waits v ↔ frontier.Waits v := by
  constructor
  · intro waits
    obtain ⟨waiting, member, rfl, same⟩ := waits
    rcases mem_queue_relabel.mp member with rfl | member
    · exact absurd rfl other
    · exact ⟨waiting, member, rfl, same.trans (dist_relabel_of_ne other)⟩
  · intro waits
    obtain ⟨waiting, member, rfl, same⟩ := waits
    exact ⟨waiting, mem_queue_relabel.mpr (.inr member), rfl, same.trans (dist_relabel_of_ne other).symm⟩

end relabel

/-- All that looking at one face can do. -/
theorem relax_cases (frontier : Frontier n) (size : potential.size = n) (step : Residual n × Nat)
    (tail : step.1.tail = entry.node) :
    (¬ Improves potential entry frontier step.1 ∧
      relax potential entry (potential.price entry.node) frontier step = .ok frontier) ∨
    (Improves potential entry frontier step.1 ∧ frontier.hops entry.node + 1 < n ∧
      relax potential entry (potential.price entry.node) frontier step =
        .ok (relabel potential entry frontier step)) ∨
    (Improves potential entry frontier step.1 ∧ n ≤ frontier.hops entry.node + 1 ∧
      relax potential entry (potential.price entry.node) frontier step =
        .error (.state .endlessPath)) := by
  obtain ⟨face, place⟩ := step
  change face.tail = entry.node at tail
  have offered : entry.dist + face.cost + potential.price entry.node - potential.price face.head =
      offer potential entry face := by
    rw [offer, Residual.reducedCost, tail]
    omega
  simp only [relax]
  by_cases full : face.room ≤ 0
  · left
    rw [if_pos full]
    exact ⟨fun improves => by have room := improves.room; omega, rfl⟩
  · rw [if_neg full, Potential.entry_eq_price size]
    simp only [bind, Except.bind, offered]
    by_cases settled : (frontier.labels.entry face.head).dist ≤ offer potential entry face
    · left
      rw [if_pos settled]
      refine ⟨fun improves => ?_, rfl⟩
      have cheaper := improves.cheaper
      rw [dist] at cheaper
      omega
    · have improves : Improves potential entry frontier face :=
        ⟨tail, by omega, Int.not_le.mp settled⟩
      rw [if_neg settled]
      by_cases long : n ≤ frontier.hops entry.node + 1
      · exact .inr (.inr ⟨improves, long, if_pos long⟩)
      · exact .inr (.inl ⟨improves, Nat.not_le.mp long, if_neg long⟩)

/-- How looking at some faces can end: none of them has anything left to offer, or the way
    over one of them has grown too long. -/
inductive Scan (potential : Potential) (entry : Entry n) (frontier : Frontier n)
    (looked : Residual n → Prop) (motive : Frontier n → Prop) : Except Fault (Frontier n) → Prop where
  | done {last : Frontier n} : motive last → (∀ v, last.dist v ≤ frontier.dist v) →
    (∀ face, looked face → last.dist face.head ≤ offer potential entry face) →
    Scan potential entry frontier looked motive (.ok last)
  | long {last : Frontier n} {face : Residual n} : looked face → motive last →
    Improves potential entry last face → n ≤ last.hops entry.node + 1 →
    Scan potential entry frontier looked motive (.error (.state .endlessPath))

theorem foldlM_relax {motive : Frontier n → Prop} (size : potential.size = n)
    (steps : List (Residual n × Nat)) (tails : ∀ step ∈ steps, step.1.tail = entry.node)
    (keeps : ∀ frontier, ∀ step ∈ steps, motive frontier → Improves potential entry frontier step.1 →
      frontier.hops entry.node + 1 < n → motive (relabel potential entry frontier step))
    (holds : motive frontier) :
    Scan potential entry frontier (fun face => 0 < face.room ∧ ∃ place, (face, place) ∈ steps) motive
      (steps.foldlM (relax potential entry (potential.price entry.node)) frontier) := by
  induction steps generalizing frontier with
  | nil => exact .done holds (fun _ => Int.le_refl _) (by simp)
  | cons step rest ih =>
      have tail := tails step List.mem_cons_self
      have onward : ∀ middle : Frontier n, motive middle → (∀ v, middle.dist v ≤ frontier.dist v) →
          (0 < step.1.room → middle.dist step.1.head ≤ offer potential entry step.1) →
          Scan potential entry frontier
            (fun face => 0 < face.room ∧ ∃ place, (face, place) ∈ step :: rest) motive
            (rest.foldlM (relax potential entry (potential.price entry.node)) middle) := by
        intro middle holds falls first
        have later := ih (fun other member => tails other (List.mem_cons_of_mem _ member))
          (fun frontier other member => keeps frontier other (List.mem_cons_of_mem _ member)) holds
        generalize rest.foldlM (relax potential entry (potential.price entry.node)) middle = ended
          at later ⊢
        cases later with
        | done holds lower looked =>
            apply Scan.done holds (fun v => Int.le_trans (lower v) (falls v))
            intro face relevant
            obtain ⟨room, place, member⟩ := relevant
            rcases List.mem_cons.mp member with rfl | member
            · exact Int.le_trans (lower _) (first room)
            · exact looked face ⟨room, place, member⟩
        | long relevant holds improves long =>
            obtain ⟨room, place, member⟩ := relevant
            exact .long ⟨room, place, List.mem_cons_of_mem _ member⟩ holds improves long
      rw [List.foldlM_cons]
      rcases relax_cases frontier size step tail with
        ⟨fails, same⟩ | ⟨improves, short, same⟩ | ⟨improves, long, same⟩
      · rw [same]
        apply onward frontier holds (fun _ => Int.le_refl _)
        intro room
        exact Int.not_lt.mp fun cheaper => fails ⟨tail, room, cheaper⟩
      · rw [same]
        refine onward _ (keeps frontier step List.mem_cons_self holds improves short)
          (dist_relabel_le improves) fun _ => ?_
        exact Int.le_of_eq dist_relabel_self
      · rw [same]
        exact .long ⟨improves.room, step.2, List.mem_cons_self⟩ holds improves long

theorem mem_zipIdx_out {u : Fin n} {step : Residual n × Nat} :
    step ∈ (net.out u).zipIdx ↔ (net.out u)[step.2]? = some step.1 :=
  List.mem_zipIdx_iff_getElem?

/-- What every new label keeps, looking at every face out of a node keeps. -/
theorem settle_scan (net : Network n) (frontier : Frontier n) {motive : Frontier n → Prop}
    (size : potential.size = n) (named : entry.name = entry.node.val)
    (keeps : ∀ frontier step, (net.out entry.node)[step.2]? = some step.1 → motive frontier →
      net.Usable step.1 → Improves potential entry frontier step.1 →
      frontier.hops entry.node + 1 < n → motive (relabel potential entry frontier step))
    (holds : motive frontier) :
    Scan potential entry frontier (fun face => net.Usable face ∧ face.tail = entry.node) motive
      (settle net potential entry frontier) := by
  have leaves : ∀ step ∈ (net.out entry.node).zipIdx,
      step.1 ∈ net.residuals ∧ step.1.tail = entry.node := by
    intro step member
    exact Network.mem_out.mp (List.mem_of_getElem? (mem_zipIdx_out.mp member))
  have scan := foldlM_relax size (net.out entry.node).zipIdx
    (fun step member => (leaves step member).2)
    (fun frontier step member holds improves => keeps frontier step (mem_zipIdx_out.mp member) holds
      ⟨(leaves step member).1, improves.room⟩ improves) holds
  rw [settle, named, Potential.entry_eq_price size]
  change Scan potential entry frontier _ motive ((net.out entry.node).zipIdx.foldlM _ frontier)
  generalize (net.out entry.node).zipIdx.foldlM (relax potential entry (potential.price entry.node))
    frontier = ended at scan
  cases scan with
  | done holds lower looked =>
      apply Scan.done holds lower
      intro face relevant
      obtain ⟨usable, tail⟩ := relevant
      obtain ⟨place, found⟩ := List.mem_iff_getElem?.mp (Network.mem_out.mpr ⟨usable.1, tail⟩)
      exact looked face ⟨usable.2, place, mem_zipIdx_out.mpr found⟩
  | long relevant holds improves long =>
      obtain ⟨room, place, member⟩ := relevant
      obtain ⟨inside, tail⟩ := leaves _ member
      exact .long ⟨⟨inside, room⟩, tail⟩ holds improves long

/-- All the ways in which a search can end that has enough steps. -/
inductive Ending (net : Network n) (potential : Potential) (goal : Option Int)
    (motive : Frontier n → Prop) : Except Fault (Frontier n × Bool) → Prop where
  | drained {last : Frontier n} : motive last → last.queue = [] →
    Ending net potential goal motive (.ok (last, false))
  | stopped {last : Frontier n} {entry : Entry n} {rest : Queue n} : motive last →
    last.queue = entry :: rest → last.dist entry.node = entry.dist → goal = some entry.name →
    Ending net potential goal motive (.ok (last, true))
  | failed {last : Frontier n} {entry : Entry n} {rest : Queue n} {fault : Fault} : motive last →
    last.queue = entry :: rest → last.dist entry.node = entry.dist →
    settle net potential entry { last with queue := rest } = .error fault →
    Ending net potential goal motive (.error fault)

/-- What dropping an overtaken entry and looking at a node keep, a search keeps. If both make
    the frontier lighter, it needs no more steps than the frontier weighs. -/
theorem drain_ending {goal : Option Int} {motive : Frontier n → Prop} (weight : Frontier n → Nat)
    (filled : ∀ frontier, frontier.queue.length ≤ weight frontier)
    (skips : ∀ frontier entry rest, motive frontier → frontier.queue = entry :: rest →
      frontier.dist entry.node ≠ entry.dist →
      motive { frontier with queue := rest } ∧ weight { frontier with queue := rest } < weight frontier)
    (settles : ∀ frontier entry rest next, motive frontier → frontier.queue = entry :: rest →
      frontier.dist entry.node = entry.dist → goal ≠ some entry.name →
      settle net potential entry { frontier with queue := rest } = .ok next →
      motive next ∧ weight next < weight frontier)
    (budget : Nat) (holds : motive frontier) (enough : weight frontier ≤ budget) :
    Ending net potential goal motive (drain net potential goal budget frontier) := by
  induction budget generalizing frontier with
  | zero =>
      have empty : frontier.queue = [] := by
        have bound := filled frontier
        exact List.length_eq_zero_iff.mp (by omega)
      unfold drain
      rw [empty]
      exact .drained holds empty
  | succ budget ih =>
      unfold drain
      split
      · rename_i empty
        exact .drained holds empty
      · rename_i entry rest queue
        dsimp only
        split
        · rename_i overtaken
          obtain ⟨holds, lighter⟩ := skips frontier entry rest holds queue overtaken
          exact ih holds (by omega)
        · rename_i current
          have current : frontier.dist entry.node = entry.dist := Decidable.not_not.mp current
          split
          · rename_i first
            exact .stopped holds queue current first
          · rename_i other
            cases settled : settle net potential entry { frontier with queue := rest } with
            | error fault => exact .failed holds queue current settled
            | ok next =>
                obtain ⟨holds, lighter⟩ :=
                  settles frontier entry rest next holds queue current other settled
                exact ih holds (by omega)

end Frontier

end MinCostFlow
