import Mathlib.Data.List.Chain
import Mathlib.Data.List.Nodup
import Mathlib.Logic.Function.Basic

/-!
# Queues of linked nodes

Every node gives the next one, and a queue keeps its first and its last node.
`null` stands for no node: it follows the last one, and it is both ends of the empty
queue.
-/

namespace Flurry.LinkedQueue

variable {Node : Type*} {null : Node} {next next' : Node → Node}
variable {head tail node : Node} {nodes : List Node}

/-- The nodes lead from one to the next and the last one to `null`. -/
def Linked (null : Node) (next : Node → Node) (nodes : List Node) : Prop :=
  (nodes ++ [null]).IsChain fun node successor => next node = successor

/-- The chain of the nodes has the given ends. -/
structure Delimits (null : Node) (next : Node → Node) (head tail : Node)
    (nodes : List Node) : Prop where
  head_eq : head = nodes.headD null
  tail_eq : tail = nodes.getLastD null
  linked : Linked null next nodes

theorem linked_nil : Linked null next [] := List.IsChain.singleton null

theorem linked_cons :
    Linked null next (node :: nodes) ↔
      next node = nodes.headD null ∧ Linked null next nodes := by
  unfold Linked
  cases nodes with
  | nil => simp
  | cons successor nodes => simp [List.isChain_cons_cons]

theorem linked_append {front : List Node} :
    Linked null next (front ++ node :: nodes) ↔
      Linked node next front ∧ Linked null next (node :: nodes) := by
  induction front with
  | nil => simp [linked_nil]
  | cons first front ih =>
      have hhead : (front ++ node :: nodes).headD null = front.headD node := by
        cases front <;> rfl
      rw [List.cons_append, linked_cons, linked_cons, ih, hhead, and_assoc]

theorem Linked.congr (hlinked : Linked null next nodes)
    (hagree : ∀ node ∈ nodes, next' node = next node) : Linked null next' nodes := by
  induction nodes with
  | nil => exact linked_nil
  | cons node nodes ih =>
      rw [linked_cons] at hlinked ⊢
      exact ⟨(hagree node List.mem_cons_self).trans hlinked.1,
        ih hlinked.2 fun other hother => hagree other (List.mem_cons_of_mem node hother)⟩

namespace Delimits

theorem nil : Delimits null next null null [] := ⟨rfl, rfl, linked_nil⟩

theorem congr (hqueue : Delimits null next head tail nodes)
    (hagree : ∀ node ∈ nodes, next' node = next node) :
    Delimits null next' head tail nodes :=
  ⟨hqueue.head_eq, hqueue.tail_eq, hqueue.linked.congr hagree⟩

theorem head_eq_null_iff (hqueue : Delimits null next head tail nodes)
    (hnull : null ∉ nodes) : head = null ↔ nodes = [] := by
  rw [hqueue.head_eq]
  cases nodes with
  | nil => simp
  | cons node nodes => simpa using Ne.symm (List.ne_of_not_mem_cons hnull)

theorem tail_mem (hqueue : Delimits null next head tail nodes) (hnodes : nodes ≠ []) :
    tail ∈ nodes := by
  rw [hqueue.tail_eq, List.getLastD_eq_getLast?, List.getLast?_eq_some_getLast hnodes]
  exact List.getLast_mem hnodes

theorem singleton (hnext : next node = null) : Delimits null next node node [node] :=
  ⟨rfl, rfl, linked_cons.mpr ⟨hnext, linked_nil⟩⟩

/-- A node put behind the last one becomes the last one. -/
theorem push [DecidableEq Node] (hqueue : Delimits null next head tail nodes)
    (hnodes : nodes ≠ []) (hnodup : (nodes ++ [node]).Nodup) (hnext : next node = null) :
    Delimits null (Function.update next tail node) head node (nodes ++ [node]) := by
  obtain ⟨front, last, rfl⟩ := (List.eq_nil_or_concat' nodes).resolve_left hnodes
  obtain ⟨hold, hnew, hapart⟩ := List.nodup_append.mp hnodup
  have hlast : tail = last := by simpa using hqueue.tail_eq
  have hnode : node ≠ last := fun heq => hapart last (by simp) node (by simp) heq.symm
  have hfront : last ∉ front := fun hmem =>
    (List.nodup_append.mp hold).2.2 last hmem last (by simp) rfl
  subst hlast
  refine ⟨?_, by simp, ?_⟩
  · rw [hqueue.head_eq]
    cases front <;> rfl
  · rw [List.append_assoc, List.singleton_append, linked_append, linked_cons, linked_cons]
    refine ⟨(linked_append.mp hqueue.linked).1.congr ?_, ?_, ?_, linked_nil⟩
    · intro other hother
      exact Function.update_of_ne (ne_of_mem_of_not_mem hother hfront) ..
    · exact Function.update_self ..
    · rw [Function.update_of_ne hnode, hnext]
      rfl

/-- Without its first node, the queue starts at the next one. -/
theorem pop [DecidableEq Node] (hqueue : Delimits null next head tail (node :: nodes))
    (hnull : null ∉ nodes) :
    Delimits null next (next node) (if next node = null then null else tail) nodes := by
  obtain ⟨hnext, hlinked⟩ := linked_cons.mp hqueue.linked
  cases nodes with
  | nil => exact ⟨hnext, by simp [hnext], hlinked⟩
  | cons successor nodes =>
      have hne : next node ≠ null := by
        rw [hnext]
        exact Ne.symm (List.ne_of_not_mem_cons hnull)
      refine ⟨hnext, ?_, hlinked⟩
      rw [if_neg hne, hqueue.tail_eq]
      rfl

end Delimits

end Flurry.LinkedQueue
