import Flurry.Core.LinkedTree

/-!
# Search order with repeated keys

Keys may repeat, and equal keys keep their insertion order: the keys of a left
subtree lie strictly below the key of its root, those of a right subtree at or
above it.  In order such a tree is a list sorted by key, and inserting a leaf
is insertion behind every element whose key is not larger.
-/

namespace Flurry.LinkedTree

variable {P K : Type*} [LinearOrder K]

/-- Position a leaf behind every element whose key is at most its own. -/
def insertByKey (key : P → K) (leaf : P) (nodes : List P) : List P :=
  nodes.orderedInsert (fun left right => key left < key right) leaf

theorem insertByKey_append_of_lt {key : P → K} {leaf root : P}
    (hlt : key leaf < key root) (left right : List P) :
    insertByKey key leaf (left ++ root :: right) =
      insertByKey key leaf left ++ root :: right := by
  induction left with
  | nil => simp [insertByKey, hlt]
  | cons head tail ih =>
      simp only [insertByKey, List.cons_append, List.orderedInsert_cons] at ih ⊢
      split <;> simp [ih]

theorem insertByKey_append_of_le {key : P → K} {leaf : P} {left : List P}
    (hle : ∀ node ∈ left, key node ≤ key leaf) (right : List P) :
    insertByKey key leaf (left ++ right) =
      left ++ insertByKey key leaf right := by
  induction left with
  | nil => rfl
  | cons head tail ih =>
      have hhead : ¬ key leaf < key head := not_lt.mpr (hle head (by simp))
      have htail := ih fun node hnode => hle node (by simp [hnode])
      simp only [insertByKey, List.cons_append, List.orderedInsert_cons, hhead,
        if_false] at htail ⊢
      rw [htail]

/-- A relation between the elements of a sorted list is kept if the leaf stands in it
to those before and behind. -/
theorem pairwise_insertByKey {key : P → K} {leaf : P} {nodes : List P}
    {relation : P → P → Prop}
    (hsorted : nodes.Pairwise fun left right => key left ≤ key right)
    (hnodes : nodes.Pairwise relation)
    (hbefore : ∀ node ∈ nodes, key node ≤ key leaf → relation node leaf)
    (hbehind : ∀ node ∈ nodes, key leaf < key node → relation leaf node) :
    (insertByKey key leaf nodes).Pairwise relation := by
  induction nodes with
  | nil => simp [insertByKey]
  | cons head tail ih =>
      obtain ⟨hheadSorted, htailSorted⟩ := List.pairwise_cons.mp hsorted
      obtain ⟨hhead, htail⟩ := List.pairwise_cons.mp hnodes
      by_cases hlt : key leaf < key head
      · rw [insertByKey, List.orderedInsert_cons, if_pos hlt]
        refine List.pairwise_cons.mpr ⟨fun node hnode => hbehind node hnode ?_, hnodes⟩
        rcases List.mem_cons.mp hnode with rfl | hnode
        · exact hlt
        · exact hlt.trans_le (hheadSorted node hnode)
      · have hrest := ih htailSorted htail
          (fun node hnode => hbefore node (List.mem_cons_of_mem _ hnode))
          (fun node hnode => hbehind node (List.mem_cons_of_mem _ hnode))
        rw [insertByKey, List.orderedInsert_cons, if_neg hlt]
        refine List.pairwise_cons.mpr ⟨fun node hnode => ?_, hrest⟩
        rcases (List.mem_orderedInsert _).mp hnode with rfl | hnode
        · exact hbefore head (List.mem_cons_self ..) (not_lt.mp hlt)
        · exact hhead node hnode

namespace Shape

/-- The search order of a shape. -/
def Ordered (key : P → K) : Shape P → Prop
  | nil => True
  | node left root right =>
      (∀ other ∈ left.inorder, key other < key root) ∧
        (∀ other ∈ right.inorder, key root ≤ key other) ∧
          left.Ordered key ∧ right.Ordered key

theorem Ordered.congr {key key' : P → K} {shape : Shape P}
    (hordered : shape.Ordered key)
    (hagree : ∀ node ∈ shape.inorder, key' node = key node) :
    shape.Ordered key' := by
  induction shape with
  | nil => trivial
  | node left root right ihLeft ihRight =>
      obtain ⟨hbelow, habove, hleft, hright⟩ := hordered
      have hroot := hagree root (by simp)
      have hleftAgree : ∀ node ∈ left.inorder, key' node = key node :=
        fun node hnode => hagree node (by simp [hnode])
      have hrightAgree : ∀ node ∈ right.inorder, key' node = key node :=
        fun node hnode => hagree node (by simp [hnode])
      refine ⟨fun other hother => ?_, fun other hother => ?_,
        ihLeft hleft hleftAgree, ihRight hright hrightAgree⟩
      · rw [hleftAgree other hother, hroot]
        exact hbelow other hother
      · rw [hrightAgree other hother, hroot]
        exact habove other hother

theorem Ordered.sorted {key : P → K} {shape : Shape P}
    (hordered : shape.Ordered key) :
    shape.inorder.Pairwise (fun left right => key left ≤ key right) := by
  induction shape with
  | nil => simp
  | node left root right ihLeft ihRight =>
      obtain ⟨hbelow, habove, hleft, hright⟩ := hordered
      simp only [inorder_node, List.pairwise_append, List.pairwise_cons,
        List.mem_cons]
      refine ⟨ihLeft hleft, ⟨habove, ihRight hright⟩, ?_⟩
      rintro first hfirst second (rfl | hsecond)
      · exact (hbelow first hfirst).le
      · exact (hbelow first hfirst).le.trans (habove second hsecond)

theorem Ordered.removeMin {key : P → K} {shape : Shape P}
    (hordered : shape.Ordered key) : shape.removeMin.Ordered key := by
  induction shape with
  | nil => trivial
  | node left root right ihLeft =>
      obtain ⟨hbelow, habove, hleft, hright⟩ := hordered
      cases left with
      | nil => exact hright
      | node inner child outer =>
          refine ⟨fun other hother => hbelow other ?_, habove, ihLeft hleft, hright⟩
          rw [inorder_removeMin] at hother
          exact List.mem_of_mem_tail hother

/-- Joining the two subtrees of a node keeps the search order. -/
theorem Ordered.join {key : P → K} {left right : Shape P} {root : P}
    (hordered : (node left root right).Ordered key) :
    (left.join right).Ordered key := by
  obtain ⟨hbelow, habove, hleft, hright⟩ := hordered
  cases left with
  | nil => exact hright
  | node inner child outer =>
      simp only [Shape.join]
      cases hlist : right.inorder with
      | nil => simpa using hleft
      | cons successor rest =>
          have hsorted := hright.sorted
          rw [hlist, List.pairwise_cons] at hsorted
          have hsuccessor := habove successor (by simp [hlist])
          simp only [List.head?_cons]
          refine ⟨?_, ?_, hleft, hright.removeMin⟩
          · intro other hother
            exact (hbelow other hother).trans_le hsuccessor
          · intro other hother
            rw [inorder_removeMin, hlist] at hother
            exact hsorted.1 other hother

theorem mem_inorder_insert {goLeft : P → Bool} {leaf other : P}
    {shape : Shape P} :
    other ∈ (shape.insert goLeft leaf).inorder ↔
      other = leaf ∨ other ∈ shape.inorder := by
  induction shape with
  | nil => simp [Shape.insert]
  | node left root right ihLeft ihRight =>
      simp only [Shape.insert]
      split
      · simp only [inorder_node, List.mem_append, List.mem_cons, ihLeft]
        exact or_assoc
      · simp only [inorder_node, List.mem_append, List.mem_cons, ihRight]
        rw [@or_left_comm (other = root), or_left_comm]

theorem Ordered.insert {key : P → K} {leaf : P} {shape : Shape P}
    (hordered : shape.Ordered key) :
    (shape.insert (fun node => decide (key leaf < key node)) leaf).Ordered key := by
  induction shape with
  | nil => simp [Shape.insert, Ordered]
  | node left root right ihLeft ihRight =>
      obtain ⟨hbelow, habove, hleft, hright⟩ := hordered
      simp only [Shape.insert, decide_eq_true_eq]
      split
      next hlt =>
        refine ⟨?_, habove, ihLeft hleft, hright⟩
        intro other hother
        rcases mem_inorder_insert.mp hother with rfl | hother
        · exact hlt
        · exact hbelow other hother
      next hge =>
        refine ⟨hbelow, ?_, hleft, ihRight hright⟩
        intro other hother
        rcases mem_inorder_insert.mp hother with rfl | hother
        · exact not_lt.mp hge
        · exact habove other hother

/-- In order, inserting a leaf puts it behind every key not larger. -/
theorem inorder_insert {key : P → K} {leaf : P} {shape : Shape P}
    (hordered : shape.Ordered key) :
    (shape.insert (fun node => decide (key leaf < key node)) leaf).inorder =
      insertByKey key leaf shape.inorder := by
  induction shape with
  | nil => rfl
  | node left root right ihLeft ihRight =>
      obtain ⟨hbelow, habove, hleft, hright⟩ := hordered
      simp only [Shape.insert, decide_eq_true_eq]
      split
      next hlt =>
        rw [inorder_node, inorder_node, ihLeft hleft, insertByKey_append_of_lt hlt]
      next hge =>
        have hroot : key root ≤ key leaf := not_lt.mp hge
        have hprefix : ∀ node ∈ left.inorder ++ [root], key node ≤ key leaf := by
          intro node hnode
          rcases List.mem_append.mp hnode with hmem | hmem
          · exact (hbelow node hmem).le.trans hroot
          · rw [List.mem_singleton.mp hmem]
            exact hroot
        have hsplit := insertByKey_append_of_le hprefix right.inorder
        simpa [ihRight hright] using hsplit.symm

end Shape

namespace Context

theorem ordered_of_fill {key : P → K} {context : Context P} {shape : Shape P}
    (hordered : (context.fill shape).Ordered key) : shape.Ordered key := by
  induction context generalizing shape with
  | top => exact hordered
  | left outer parent sibling ih => exact (ih hordered).2.2.1
  | right outer sibling parent ih => exact (ih hordered).2.2.2

/-- Replacing a subtree by an ordered one with fewer nodes keeps the order. -/
theorem ordered_fill_of_subset {key : P → K} {context : Context P}
    {shape shape' : Shape P} (hordered : (context.fill shape).Ordered key)
    (hshape : shape'.Ordered key)
    (hsubset : ∀ node ∈ shape'.inorder, node ∈ shape.inorder) :
    (context.fill shape').Ordered key := by
  induction context generalizing shape shape' with
  | top => exact hshape
  | left outer parent sibling ih =>
      have houter : (outer.fill (.node shape parent sibling)).Ordered key := hordered
      obtain ⟨hbelow, habove, -, hsibling⟩ := ordered_of_fill houter
      refine ih houter ⟨fun other hother => hbelow other (hsubset other hother),
        habove, hshape, hsibling⟩ ?_
      intro node hnode
      simp only [Shape.inorder_node, List.mem_append, List.mem_cons] at hnode ⊢
      exact hnode.imp_left (hsubset node)
  | right outer sibling parent ih =>
      have houter : (outer.fill (.node sibling parent shape)).Ordered key := hordered
      obtain ⟨hbelow, habove, hsibling, -⟩ := ordered_of_fill houter
      refine ih houter ⟨hbelow, fun other hother => habove other
        (hsubset other hother), hsibling, hshape⟩ ?_
      intro node hnode
      simp only [Shape.inorder_node, List.mem_append, List.mem_cons] at hnode ⊢
      exact hnode.imp_right (Or.imp_right (hsubset node))

end Context

end Flurry.LinkedTree
