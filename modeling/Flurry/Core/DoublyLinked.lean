import Flurry.Core.ByteMemory

/-!
# Doubly linked lists threaded through memory

A node is an address.  At a fixed distance `link` from it lie two words: the
address of the node before it and the address of the node after it, 0 for none.
`Segment` describes a stretch of such a list with open ends, so that a list can
be cut at any node and the pieces changed on their own.
-/

namespace Flurry.DoublyLinked

open ByteMemory

variable (link : ℕ)

/-- From `head` on, with `prev` before it, the links lead through the given
nodes and on to `tail`. -/
def Segment (memory : Memory) : ℕ → ℕ → List ℕ → ℕ → Prop
  | _, head, [], tail => head = tail
  | prev, head, node :: nodes, tail =>
      head = node ∧ load64 memory (node + link) = prev ∧
        Segment memory node (load64 memory (node + link + 8)) nodes tail

/-- The link words of two nodes do not overlap. -/
def Apart (left right : ℕ) : Prop := left + 16 ≤ right ∨ right + 16 ≤ left

/-- A byte that is not part of the node's link words. -/
def Outside (target node : ℕ) : Prop :=
  target < node + link ∨ node + link + 16 ≤ target

/-- A closed list with the given nodes. -/
structure Holds (memory : Memory) (head : ℕ) (nodes : List ℕ) : Prop where
  segment : Segment link memory 0 head nodes 0
  bounds : ∀ node ∈ nodes, 0 < node ∧ node < 2 ^ 64
  apart : nodes.Pairwise Apart

/-- The nodes that are left when one is taken out were nodes before. -/
theorem mem_of_mem_others {node other : ℕ} {before after : List ℕ}
    (hother : other ∈ before ++ after) : other ∈ before ++ node :: after := by
  rw [List.mem_append, List.mem_cons]
  exact (List.mem_append.mp hother).imp_right Or.inr

/-- Add a node at the front. -/
def pushFront (memory : Memory) (head node : ℕ) : Memory :=
  if head = 0 then
    store64 (store64 memory (node + link) 0) (node + link + 8) 0
  else
    store64 (store64 (store64 memory (node + link) 0) (node + link + 8) head)
      (head + link) node

/-- Let the node before `node` point past it. -/
def bypassNext (memory : Memory) (node : ℕ) : Memory :=
  if load64 memory (node + link) ≠ 0 then
    store64 memory (load64 memory (node + link) + link + 8)
      (load64 memory (node + link + 8))
  else memory

/-- Let the node after `node` point back past it. -/
def bypassPrev (memory : Memory) (node : ℕ) : Memory :=
  if load64 memory (node + link + 8) ≠ 0 then
    store64 memory (load64 memory (node + link + 8) + link)
      (load64 memory (node + link))
  else memory

/-- Take a node out of the list. -/
def unlink (memory : Memory) (node : ℕ) : Memory :=
  bypassPrev link (bypassNext link memory node) node

def unlinkHead (memory : Memory) (head node : ℕ) : ℕ :=
  if node = head then load64 memory (head + link + 8) else head

variable {link} {memory memory' : Memory}

/-! ## Segments -/

theorem Segment.congr {prev head tail : ℕ} {nodes : List ℕ}
    (hsegment : Segment link memory prev head nodes tail)
    (hagree : ∀ node ∈ nodes, ∀ target, ¬Outside link target node →
      memory' target = memory target) :
    Segment link memory' prev head nodes tail := by
  induction nodes generalizing prev head with
  | nil => exact hsegment
  | cons node nodes ih =>
      obtain ⟨hhead, hprev, hrest⟩ := hsegment
      have hnode := hagree node (by simp)
      have hprev' : load64 memory' (node + link) = load64 memory (node + link) := by
        apply load64_congr
        intro target hlower hupper
        exact hnode target (by unfold Outside; omega)
      have hnext' : load64 memory' (node + link + 8) =
          load64 memory (node + link + 8) := by
        apply load64_congr
        intro target hlower hupper
        exact hnode target (by unfold Outside; omega)
      refine ⟨hhead, by rw [hprev', hprev], ?_⟩
      rw [hnext']
      apply ih hrest
      intro other hother
      exact hagree other (by simp [hother])

theorem segment_append {prev head tail : ℕ} {before after : List ℕ} :
    Segment link memory prev head (before ++ after) tail ↔
      ∃ middle, Segment link memory prev head before middle ∧
        Segment link memory (before.getLast?.getD prev) middle after tail := by
  induction before generalizing prev head with
  | nil => simp [Segment]
  | cons node nodes ih =>
      simp only [List.cons_append, Segment, ih, List.getLast?_cons, Option.getD_some]
      constructor
      · rintro ⟨hhead, hprev, middle, hbefore, hafter⟩
        exact ⟨middle, ⟨hhead, hprev, hbefore⟩, hafter⟩
      · rintro ⟨middle, ⟨hhead, hprev, hbefore⟩, hafter⟩
        exact ⟨hhead, hprev, middle, hbefore, hafter⟩

/-- Redirect the end of a segment. -/
theorem Segment.setTail {prev head tail last value : ℕ} {nodes : List ℕ}
    (hsegment : Segment link memory prev head (nodes ++ [last]) tail)
    (hapart : ∀ node ∈ nodes, Apart node last) (hvalue : value < 2 ^ 64) :
    Segment link (store64 memory (last + link + 8) value) prev head
      (nodes ++ [last]) value := by
  rw [segment_append] at hsegment ⊢
  obtain ⟨middle, hbefore, hmiddle, hprev, -⟩ := hsegment
  refine ⟨middle, hbefore.congr ?_, hmiddle, ?_, ?_⟩
  · intro node hnode target htarget
    have := hapart node hnode
    unfold Outside at htarget
    unfold Apart at this
    apply store64_of_not_mem
    omega
  · rw [load64_store64_of_disjoint (by omega), hprev]
  · exact load64_store64_same hvalue

/-- Replace what stands before a segment. -/
theorem Segment.setPrev {prev head tail node value : ℕ} {nodes : List ℕ}
    (hsegment : Segment link memory prev head (node :: nodes) tail)
    (hapart : ∀ other ∈ nodes, Apart node other) (hvalue : value < 2 ^ 64) :
    Segment link (store64 memory (node + link) value) value head (node :: nodes)
      tail := by
  obtain ⟨hhead, -, hrest⟩ := hsegment
  refine ⟨hhead, load64_store64_same hvalue, ?_⟩
  rw [load64_store64_of_disjoint (by omega)]
  apply hrest.congr
  intro other hother target htarget
  have := hapart other hother
  unfold Outside at htarget
  unfold Apart at this
  apply store64_of_not_mem
  omega

/-! ## Lists -/

theorem Holds.congr {head : ℕ} {nodes : List ℕ}
    (hholds : Holds link memory head nodes)
    (hagree : ∀ node ∈ nodes, ∀ target, ¬Outside link target node →
      memory' target = memory target) :
    Holds link memory' head nodes :=
  ⟨hholds.segment.congr hagree, hholds.bounds, hholds.apart⟩

theorem pushFront_of_outside {head node target : ℕ} {nodes : List ℕ}
    (hholds : Holds link memory head nodes)
    (htarget : ∀ other ∈ node :: nodes, Outside link target other) :
    pushFront link memory head node target = memory target := by
  have hnode := htarget node (by simp)
  unfold Outside at hnode
  cases nodes with
  | nil =>
      have hhead : head = 0 := hholds.segment
      rw [pushFront, if_pos hhead, store64_of_not_mem (by omega),
        store64_of_not_mem (by omega)]
  | cons first nodes =>
      obtain rfl : head = first := hholds.segment.1
      have hfirst := htarget head (by simp)
      have hbounds := hholds.bounds head (by simp)
      unfold Outside at hfirst
      rw [pushFront, if_neg (by omega), store64_of_not_mem (by omega),
        store64_of_not_mem (by omega), store64_of_not_mem (by omega)]

theorem pushFront_holds {head node : ℕ} {nodes : List ℕ}
    (hholds : Holds link memory head nodes) (hnode : 0 < node ∧ node < 2 ^ 64)
    (hapart : ∀ other ∈ nodes, Apart node other) :
    Holds link (pushFront link memory head node) node (node :: nodes) := by
  have hbounds : ∀ other ∈ node :: nodes, 0 < other ∧ other < 2 ^ 64 := by
    intro other hother
    rcases List.mem_cons.mp hother with rfl | hother
    · exact hnode
    · exact hholds.bounds other hother
  refine ⟨⟨rfl, ?_⟩, hbounds, List.pairwise_cons.mpr ⟨hapart, hholds.apart⟩⟩
  cases nodes with
  | nil =>
      have hhead : head = 0 := hholds.segment
      rw [pushFront, if_pos hhead]
      constructor
      · rw [load64_store64_of_disjoint (by omega), load64_store64_same (by omega)]
      · exact load64_store64_same (by omega)
  | cons first nodes =>
      obtain rfl : head = first := hholds.segment.1
      have hfirst := hapart head (by simp)
      have hhead := hholds.bounds head (by simp)
      unfold Apart at hfirst
      rw [pushFront, if_neg (by omega)]
      constructor
      · rw [load64_store64_of_disjoint (by omega), load64_store64_of_disjoint (by omega),
          load64_store64_same (by omega)]
      · rw [load64_store64_of_disjoint (by omega), load64_store64_same hhead.2]
        refine Segment.setPrev (hholds.segment.congr ?_)
          (List.pairwise_cons.mp hholds.apart).1 hnode.2
        intro other hother target htarget
        have hother' := hapart other hother
        unfold Outside at htarget
        unfold Apart at hother'
        rw [store64_of_not_mem (by omega), store64_of_not_mem (by omega)]

/-! ## Removal -/

section Unlink

variable {head node : ℕ} {before after : List ℕ}

theorem bypassNext_of_outside {target : ℕ}
    (hprev : load64 memory (node + link) = before.getLast?.getD 0)
    (htarget : ∀ other ∈ before, Outside link target other) :
    bypassNext link memory node target = memory target := by
  rcases List.eq_nil_or_concat before with rfl | ⟨init, last, rfl⟩
  · rw [bypassNext, if_neg (by simp [hprev])]
  · have hlast := htarget last (by simp)
    have hprev' : load64 memory (node + link) = last := by simpa using hprev
    unfold Outside at hlast
    rw [bypassNext]
    split
    · rw [hprev']
      apply store64_of_not_mem
      omega
    · rfl

/-- The part before the node now ends where the node's successor is. -/
theorem bypassNext_segment (hsegment : Segment link memory 0 head before node)
    (hprev : load64 memory (node + link) = before.getLast?.getD 0)
    (hbounds : ∀ other ∈ before, 0 < other) (hapart : before.Pairwise Apart) :
    Segment link (bypassNext link memory node) 0
      (if before = [] then load64 memory (node + link + 8) else head) before
        (load64 memory (node + link + 8)) := by
  rcases List.eq_nil_or_concat before with rfl | ⟨init, last, rfl⟩
  · rfl
  · have hlast := hbounds last (by simp)
    have hprev' : load64 memory (node + link) = last := by simpa using hprev
    rw [List.concat_eq_append] at *
    rw [if_neg (by simp), bypassNext, hprev', if_pos (by omega)]
    apply hsegment.setTail
    · intro other hother
      exact (List.pairwise_append.mp hapart).2.2 other hother last (by simp)
    · exact load64_lt memory (node + link + 8)

theorem bypassPrev_of_outside {target : ℕ}
    (hsegment : Segment link memory node (load64 memory (node + link + 8)) after 0)
    (htarget : ∀ other ∈ after, Outside link target other) :
    bypassPrev link memory node target = memory target := by
  cases after with
  | nil =>
      have hnext : load64 memory (node + link + 8) = 0 := hsegment
      rw [bypassPrev, if_neg (by simp [hnext])]
  | cons first after =>
      have hnext : load64 memory (node + link + 8) = first := hsegment.1
      have hfirst := htarget first (by simp)
      unfold Outside at hfirst
      rw [bypassPrev]
      split
      · rw [hnext]
        apply store64_of_not_mem
        omega
      · rfl

/-- The part after the node now follows the node's predecessor. -/
theorem bypassPrev_segment
    (hsegment : Segment link memory node (load64 memory (node + link + 8)) after 0)
    (hbounds : ∀ other ∈ after, 0 < other) (hapart : after.Pairwise Apart) :
    Segment link (bypassPrev link memory node) (load64 memory (node + link))
      (load64 memory (node + link + 8)) after 0 := by
  cases after with
  | nil =>
      simp only [Segment] at hsegment ⊢
      exact hsegment
  | cons first after =>
      have hnext : load64 memory (node + link + 8) = first := hsegment.1
      have hfirst := hbounds first (by simp)
      rw [bypassPrev, if_pos (by omega)]
      rw [hnext] at hsegment ⊢
      apply hsegment.setPrev (List.pairwise_cons.mp hapart).1
      exact load64_lt memory (node + link)

/-- Bytes inside the link words of one node are outside those of a node apart
from it. -/
theorem Apart.outside {left right target : ℕ} (hapart : Apart left right)
    (htarget : ¬Outside link target left) : Outside link target right := by
  unfold Outside at *
  unfold Apart at hapart
  omega

theorem Apart.symm {left right : ℕ} (hapart : Apart left right) :
    Apart right left :=
  Or.symm hapart

/-- What taking a node out does to memory, the part before it and the part after
it. -/
theorem unlink_spec (hholds : Holds link memory head (before ++ node :: after)) :
    Holds link (unlink link memory node)
        (unlinkHead link (unlink link memory node) head node) (before ++ after) ∧
      ∀ target, (∀ other ∈ before ++ after, Outside link target other) →
        unlink link memory node target = memory target := by
  obtain ⟨hsegment, hbounds, hapart⟩ := hholds
  obtain ⟨middle, hbefore, rfl, hprev, hafter⟩ := segment_append.mp hsegment
  obtain ⟨hapartBefore, hapartAfter, hapartCross⟩ := List.pairwise_append.mp hapart
  obtain ⟨hapartNode, hapartAfter⟩ := List.pairwise_cons.mp hapartAfter
  set next := load64 memory (middle + link + 8) with hnext
  set first := bypassNext link memory middle with hfirst
  have hfirstOutside : ∀ {target}, (∀ other ∈ before, Outside link target other) →
      first target = memory target := fun htarget =>
    bypassNext_of_outside hprev htarget
  -- the words of the node itself survive both steps
  have hnodeFirst : ∀ target, ¬Outside link target middle →
      first target = memory target := by
    intro target htarget
    apply hfirstOutside
    intro other hother
    exact (hapartCross other hother middle (by simp)).symm.outside htarget
  have hprevFirst : load64 first (middle + link) = before.getLast?.getD 0 := by
    rw [← hprev]
    apply load64_congr
    intro target hlower hupper
    exact hnodeFirst target (by unfold Outside; omega)
  have hnextFirst : load64 first (middle + link + 8) = next := by
    apply load64_congr
    intro target hlower hupper
    exact hnodeFirst target (by unfold Outside; omega)
  have hsegmentBefore : Segment link first 0 (if before = [] then next else head)
      before next :=
    bypassNext_segment hbefore hprev
      (fun other hother => (hbounds other (by simp [hother])).1) hapartBefore
  have hsegmentAfter : Segment link first middle next after 0 := by
    apply hafter.congr
    intro other hother target htarget
    apply hfirstOutside
    intro other' hother'
    exact (hapartCross other' hother' other (by simp [hother])).symm.outside htarget
  set second := bypassPrev link first middle with hsecond
  have hsecondOutside : ∀ {target}, (∀ other ∈ after, Outside link target other) →
      second target = first target := fun htarget =>
    bypassPrev_of_outside (hnextFirst ▸ hsegmentAfter) htarget
  have hsegmentAfter' : Segment link second (before.getLast?.getD 0) next after 0 := by
    have hbypass := bypassPrev_segment (hnextFirst.symm ▸ hsegmentAfter)
      (fun other hother => (hbounds other (by simp [hother])).1) hapartAfter
    rw [hprevFirst, hnextFirst] at hbypass
    exact hbypass
  have hsegmentBefore' : Segment link second 0 (if before = [] then next else head)
      before next := by
    apply hsegmentBefore.congr
    intro other hother target htarget
    apply hsecondOutside
    intro other' hother'
    exact (hapartCross other hother other' (by simp [hother'])).outside htarget
  have hnextSecond : load64 second (middle + link + 8) = next := by
    rw [← hnextFirst]
    apply load64_congr
    intro target hlower hupper
    apply hsecondOutside
    intro other hother
    exact (hapartNode other hother).outside (by unfold Outside; omega)
  have hhead : unlinkHead link second head middle =
      if before = [] then next else head := by
    cases before with
    | nil =>
        obtain rfl : head = middle := hbefore
        rw [unlinkHead, if_pos rfl, if_pos rfl, hnextSecond]
    | cons node nodes =>
        obtain rfl : head = node := hbefore.1
        have hne := hapartCross head (by simp) middle (by simp)
        unfold Apart at hne
        rw [unlinkHead, if_neg (by omega), if_neg (by simp)]
  constructor
  · refine ⟨?_, ?_, ?_⟩
    · rw [segment_append]
      exact ⟨next, hhead ▸ hsegmentBefore', hsegmentAfter'⟩
    · intro other hother
      exact hbounds other (mem_of_mem_others hother)
    · rw [List.pairwise_append]
      exact ⟨hapartBefore, hapartAfter, fun left hleft right hright =>
        hapartCross left hleft right (List.mem_cons_of_mem middle hright)⟩
  · intro target htarget
    have hafterTarget : ∀ other ∈ after, Outside link target other :=
      fun other hother => htarget other (List.mem_append_right before hother)
    have hbeforeTarget : ∀ other ∈ before, Outside link target other :=
      fun other hother => htarget other (List.mem_append_left after hother)
    exact (hsecondOutside hafterTarget).trans (hfirstOutside hbeforeTarget)

end Unlink

end Flurry.DoublyLinked
