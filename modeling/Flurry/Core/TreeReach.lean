import Flurry.Core.TreeSurgery

/-!
# Nodes that the links lead to

Surgery on a node that is not in the tree can leave links that form no tree: some
nodes are cut off and others hang in two places.  What counts then is which nodes
can be reached from the root.  The links may still prescribe a shape, in which a
node can occur more than once.
-/

namespace Flurry.LinkedTree

variable {P : Type*}

/-! ## Height -/

/-- The number of nodes on the longest path from the root. -/
def Shape.height : Shape P → ℕ
  | nil => 0
  | node left _ right => max left.height right.height + 1

theorem Shape.height_le_length (shape : Shape P) :
    shape.height ≤ shape.inorder.length := by
  induction shape with
  | nil => exact le_rfl
  | node left root right ihLeft ihRight =>
      rw [height, inorder_node, List.length_append, List.length_cons]
      omega

theorem Context.height_fill_mono (context : Context P) {shape shape' : Shape P}
    (hheight : shape.height ≤ shape'.height) :
    (context.fill shape).height ≤ (context.fill shape').height := by
  induction context generalizing shape shape' with
  | top => exact hheight
  | left outer parent sibling ih =>
      apply ih
      simp only [Shape.height]
      omega
  | right outer sibling parent ih =>
      apply ih
      simp only [Shape.height]
      omega

/-! ## The first node -/

/-- The first node in order is the root, or the left child of some node. -/
theorem Shape.exists_first {shape : Shape P} {root : P} (hroot : shape.root? = some root) :
    ∃ (spine : Context P) (first : P) (rest : Shape P),
      shape = spine.fill (.node .nil first rest) ∧ shape.inorder.head? = some first ∧
        (spine = .top ∨ ∃ outer parent sibling, spine = .left outer parent sibling) := by
  induction shape generalizing root with
  | nil => simp at hroot
  | node left top right ihLeft =>
      cases hchild : left.root? with
      | none =>
          cases left with
          | nil => exact ⟨.top, top, right, rfl, rfl, Or.inl rfl⟩
          | node => simp at hchild
      | some child =>
          obtain ⟨inner, first, rest, hfill, hfirst, hinner⟩ := ihLeft hchild
          refine ⟨(Context.left .top top right).comp inner, first, rest, ?_, ?_, Or.inr ?_⟩
          · rw [Context.fill_comp, ← hfill, Context.fill, Context.fill]
          · simp [hfirst]
          · rcases hinner with rfl | ⟨outer, parent, sibling, rfl⟩
            · exact ⟨.top, top, right, rfl⟩
            · exact ⟨(Context.left .top top right).comp outer, parent, sibling, rfl⟩

/-! ## Reachable nodes -/

/-- Left and right links lead from the root to the node. -/
inductive Store.Reaches (store : Store P) : P → Prop
  | root {node : P} (hroot : store.root = some node) : store.Reaches node
  | left {node child : P} (hnode : store.Reaches node)
      (hchild : (store.links node).left = some child) : store.Reaches child
  | right {node child : P} (hnode : store.Reaches node)
      (hchild : (store.links node).right = some child) : store.Reaches child

/-- The children of a node of the shape belong to the shape. -/
theorem Realises.child_mem {links : P → Links P} {parent : Option P} {shape : Shape P}
    {node child : P} (hrealises : Realises links parent shape)
    (hnode : node ∈ shape.inorder)
    (hchild : (links node).left = some child ∨ (links node).right = some child) :
    child ∈ shape.inorder := by
  induction shape generalizing parent with
  | nil => simp at hnode
  | node left root right ihLeft ihRight =>
      obtain ⟨hroot, hleft, hright⟩ := hrealises
      simp only [Shape.inorder_node, List.mem_append, List.mem_cons] at hnode ⊢
      rcases hnode with hnode | rfl | hnode
      · exact Or.inl (ihLeft hleft hnode)
      · rw [hroot] at hchild
        rcases hchild with hchild | hchild
        · exact Or.inl (Shape.mem_inorder_of_root? hchild)
        · exact Or.inr (Or.inr (Shape.mem_inorder_of_root? hchild))
      · exact Or.inr (Or.inr (ihRight hright hnode))

namespace Store

variable {store : Store P} {shape : Shape P} {node other : P}

theorem reaches_of_realises {parent : Option P}
    (hrealises : Realises store.links parent shape)
    (hroot : ∀ root, shape.root? = some root → store.Reaches root)
    (hnode : node ∈ shape.inorder) : store.Reaches node := by
  induction shape generalizing parent with
  | nil => simp at hnode
  | node left root right ihLeft ihRight =>
      obtain ⟨hlinks, hleft, hright⟩ := hrealises
      have htop : store.Reaches root := hroot root rfl
      simp only [Shape.inorder_node, List.mem_append, List.mem_cons] at hnode
      rcases hnode with hnode | rfl | hnode
      · exact ihLeft hleft (fun child hchild => htop.left (by rw [hlinks, hchild])) hnode
      · exact htop
      · exact ihRight hright (fun child hchild => htop.right (by rw [hlinks, hchild])) hnode

/-- If the links prescribe a shape, its nodes are the ones that can be reached. -/
theorem reaches_iff (hroot : store.root = shape.root?)
    (hrealises : Realises store.links none shape) :
    store.Reaches node ↔ node ∈ shape.inorder := by
  constructor
  · intro hnode
    induction hnode with
    | root htop => exact Shape.mem_inorder_of_root? (hroot.symm.trans htop)
    | left _ hchild ih => exact hrealises.child_mem ih (Or.inl hchild)
    | right _ hchild ih => exact hrealises.child_mem ih (Or.inr hchild)
  · exact reaches_of_realises hrealises fun root htop => .root (hroot.trans htop)

/-! ## Taking a node out twice -/

section Transplant

variable [DecidableEq P] {outer : Context P} {parent : P} {rest sibling : Shape P}

/-- Setting a parent link to what it is changes nothing. -/
theorem links_setParent?_self {target : Option P}
    (hrealises : Realises store.links target rest) :
    (store.setParent? rest.root? target).links = store.links := by
  cases rest with
  | nil => rfl
  | node left root right =>
      change Function.update store.links root { store.links root with parent := target } = _
      rw [hrealises.1]
      exact Function.update_eq_self_iff.mpr hrealises.1.symm

/-- A former root that is taken out once more changes nothing. -/
theorem transplant_of_former_root (hholds : store.Holds rest)
    (hparent : (store.links node).parent = none) :
    (store.transplant node rest.root?).root = store.root ∧
      (store.transplant node rest.root?).links = store.links := by
  have hrelink : store.relink node rest.root? = store := by
    rw [relink, hparent, ← hholds.root]
    rfl
  rw [transplant, hrelink, hparent]
  exact ⟨root_setParent? _ _ _, links_setParent?_self hholds.links⟩

/-- A former left child that is taken out once more is not found on the left, so that
what is left of it goes to the right as well and the sibling is cut off. -/
theorem transplant_of_former_left
    (hholds : store.Holds (outer.fill (.node rest parent sibling)))
    (hnode : node ∉ (outer.fill (.node rest parent sibling)).inorder)
    (hparent : (store.links node).parent = some parent) :
    (store.transplant node rest.root?).root = store.root ∧
      Realises (store.transplant node rest.root?).links none
        (outer.fill (.node rest parent rest)) := by
  obtain ⟨houter, hlinks, hrest, -⟩ := realises_fill_iff.mp hholds.links
  have hnodup := Context.nodup_inorder_fill.mp hholds.nodup
  have hmem : parent ∈ (Shape.node rest parent sibling).inorder := by simp
  have hparentOuter : parent ∉ outer.nodes := hnodup.2.2 parent hmem
  have hparentRest : parent ∉ rest.inorder := by
    intro hcontra
    exact (List.nodup_append'.mp hnodup.2.1).2.2 hcontra List.mem_cons_self
  have hne : node ≠ parent := by
    rintro rfl
    apply hnode
    simp [Context.inorder_fill]
  have hleft : (store.links parent).left ≠ some node := by
    rw [hlinks]
    intro hroot
    apply hnode
    simp [Context.inorder_fill, Shape.mem_inorder_of_root? hroot]
  set relinked := store.setRight parent rest.root? with hrelinked
  have hrelink : store.relink node rest.root? = relinked := by
    rw [relink, hparent]
    exact if_neg hleft
  have hothers : ∀ other, other ≠ parent → relinked.links other = store.links other :=
    fun other hother => Function.update_of_ne hother _ _
  have hself : relinked.links parent = ⟨rest.root?, rest.root?, outer.parent?⟩ := by
    simp [hrelinked, setRight, hlinks]
  have hrestKept : Realises relinked.links (some parent) rest :=
    hrest.congr fun other hother => hothers other (ne_of_mem_of_not_mem hother hparentRest)
  rw [transplant, hrelink, hothers node hne, hparent]
  refine ⟨root_setParent? _ _ _, ?_⟩
  rw [links_setParent?_self hrestKept, realises_fill_iff]
  refine ⟨houter.congr fun other hother => hothers other ?_, hself, hrestKept, hrestKept⟩
  exact ne_of_mem_of_not_mem hother hparentOuter

end Transplant

/-! ## Insertion -/

/-- The descent ends at a node whose link on the chosen side is empty. -/
theorem descend_mem {goLeft : P → Bool} {parent above : Option P} {fuel : ℕ} {root : P}
    (hrealises : Realises store.links parent shape) (hroot : shape.root? = some root)
    (hfuel : shape.height ≤ fuel) :
    ∃ last ∈ shape.inorder, store.descend goLeft fuel (some root) above = some (some last) ∧
      (goLeft last = true → (store.links last).left = none) ∧
        (goLeft last = false → (store.links last).right = none) := by
  induction shape generalizing parent above fuel root with
  | nil => simp at hroot
  | node left top right ihLeft ihRight =>
      obtain ⟨hlinks, hleft, hright⟩ := hrealises
      obtain rfl : top = root := Option.some.inj hroot
      rw [Shape.height] at hfuel
      obtain ⟨fuel, rfl⟩ := Nat.exists_eq_succ_of_ne_zero (by omega : fuel ≠ 0)
      simp only [descend, hlinks, Shape.inorder_node, List.mem_append, List.mem_cons]
      cases hgo : goLeft top with
      | true =>
          simp only [if_true]
          cases hchild : left.root? with
          | none =>
              refine ⟨top, by simp, by cases fuel <;> rfl, ?_, by simp [hgo]⟩
              simp [hlinks, hchild]
          | some child =>
              have hheight : left.height ≤ fuel := by omega
              obtain ⟨last, hlast, hrest⟩ := ihLeft hleft hchild hheight
              exact ⟨last, Or.inl hlast, hrest⟩
      | false =>
          simp only [Bool.false_eq_true, if_false]
          cases hchild : right.root? with
          | none =>
              refine ⟨top, by simp, by cases fuel <;> rfl, by simp [hgo], ?_⟩
              simp [hlinks, hchild]
          | some child =>
              have hheight : right.height ≤ fuel := by omega
              obtain ⟨last, hlast, hrest⟩ := ihRight hright hchild hheight
              exact ⟨last, Or.inr (Or.inr hlast), hrest⟩

section Attach

variable [DecidableEq P] {goLeft : P → Bool} {last : P}

/-- Two nodes get new links: the one below which the other is hung, and that one. -/
theorem links_attach (hne : last ≠ node) (other : P) :
    (store.attach goLeft node last).links other =
      if other = last then
        if goLeft last then { store.links last with left := some node }
        else { store.links last with right := some node }
      else if other = node then { store.links node with parent := some last }
      else store.links other := by
  by_cases hlast : other = last
  · subst hlast
    cases hgo : goLeft other <;>
      simp [attach, hgo, setLeft, setRight, setParent, Function.update_of_ne hne]
  · by_cases hnode : other = node
    · subst hnode
      cases hgo : goLeft last <;>
        simp [attach, hgo, hlast, setLeft, setRight, setParent]
    · cases hgo : goLeft last <;>
        simp [attach, hgo, hlast, hnode, setLeft, setRight, setParent]

theorem left_attach (hne : last ≠ node) (other : P) :
    ((store.attach goLeft node last).links other).left =
      if other = last ∧ goLeft last = true then some node
      else (store.links other).left := by
  rw [links_attach hne]
  split_ifs <;> simp_all

theorem right_attach (hne : last ≠ node) (other : P) :
    ((store.attach goLeft node last).links other).right =
      if other = last ∧ goLeft last = false then some node
      else (store.links other).right := by
  rw [links_attach hne]
  split_ifs <;> simp_all

theorem root_attach : (store.attach goLeft node last).root = store.root := by
  cases hgo : goLeft last <;> simp [attach, hgo, setLeft, setRight, setParent]

/-- Hanging an unlinked node below an empty link adds that node and no other. -/
theorem attach_reaches (hlast : store.Reaches last) (hne : last ≠ node)
    (hnode : store.links node = ⟨none, none, none⟩)
    (hleft : goLeft last = true → (store.links last).left = none)
    (hright : goLeft last = false → (store.links last).right = none) :
    (store.attach goLeft node last).Reaches other ↔ other = node ∨ store.Reaches other := by
  constructor
  · intro hother
    induction hother with
    | root hroot => exact Or.inr (.root (root_attach.symm.trans hroot))
    | @left current child _ hchild ih =>
        rw [left_attach hne] at hchild
        split at hchild
        · exact Or.inl (Option.some.inj hchild).symm
        · rcases ih with rfl | hcurrent
          · simp [hnode] at hchild
          · exact Or.inr (hcurrent.left hchild)
    | @right current child _ hchild ih =>
        rw [right_attach hne] at hchild
        split at hchild
        · exact Or.inl (Option.some.inj hchild).symm
        · rcases ih with rfl | hcurrent
          · simp [hnode] at hchild
          · exact Or.inr (hcurrent.right hchild)
  · have hkept : ∀ {other}, store.Reaches other →
        (store.attach goLeft node last).Reaches other := by
      intro other hother
      induction hother with
      | root hroot => exact .root (root_attach.trans hroot)
      | left _ hchild ih =>
          refine ih.left ?_
          rw [left_attach hne, if_neg, hchild]
          rintro ⟨rfl, hgo⟩
          rw [hleft hgo] at hchild
          exact absurd hchild (by simp)
      | right _ hchild ih =>
          refine ih.right ?_
          rw [right_attach hne, if_neg, hchild]
          rintro ⟨rfl, hgo⟩
          rw [hright hgo] at hchild
          exact absurd hchild (by simp)
    rintro (rfl | hother)
    · cases hgo : goLeft last with
      | true => exact (hkept hlast).left (by rw [left_attach hne, if_pos ⟨rfl, hgo⟩])
      | false => exact (hkept hlast).right (by rw [right_attach hne, if_pos ⟨rfl, hgo⟩])
    · exact hkept hother

/-- Inserting an unlinked node succeeds if the links prescribe a shape of small height,
and it adds that node and no other. -/
theorem insert_reaches {fuel : ℕ} (goLeft : P → Bool) (hroot : store.root = shape.root?)
    (hrealises : Realises store.links none shape) (hfuel : shape.height ≤ fuel)
    (hmem : node ∉ shape.inorder) (hnode : store.links node = ⟨none, none, none⟩) :
    ∃ after, store.insert fuel goLeft node = some after ∧
      ∀ other, after.Reaches other ↔ other = node ∨ store.Reaches other := by
  cases shape with
  | nil =>
      refine ⟨store.setRoot (some node), by simp [insert, hroot], fun other => ?_⟩
      have hlinks : (store.setRoot (some node)).links node = ⟨none, none, none⟩ := hnode
      constructor
      · intro hother
        left
        induction hother with
        | root hfirst => exact (Option.some.inj hfirst).symm
        | left _ hchild ih =>
            rw [ih, hlinks] at hchild
            exact absurd hchild (by simp)
        | right _ hchild ih =>
            rw [ih, hlinks] at hchild
            exact absurd hchild (by simp)
      · rintro (rfl | hother)
        · exact .root rfl
        · exact absurd ((reaches_iff hroot hrealises).mp hother) (by simp)
  | node left root right =>
      obtain ⟨last, hlast, hdescend, hleft, hright⟩ :=
        @descend_mem P store (.node left root right) goLeft none none fuel root hrealises
          rfl hfuel
      refine ⟨store.attach goLeft node last, ?_, fun other => ?_⟩
      · simp [insert, hroot, hdescend]
      · exact attach_reaches ((reaches_iff hroot hrealises).mpr hlast)
          (ne_of_mem_of_not_mem hlast hmem) hnode hleft hright

end Attach

end Store

end Flurry.LinkedTree
