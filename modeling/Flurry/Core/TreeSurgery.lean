import Flurry.Core.LinkedTree

/-!
# Surgery on linked trees

The pointer operations of a search tree with parent links: transplanting a
subtree, deleting a node, and descending from the root to attach a new leaf.
Each one succeeds on every store that holds a tree, whatever the shape, and is
described by the shape it leaves and by the nodes it does not touch.
-/

namespace Flurry.LinkedTree

namespace Store

variable {P : Type*} [DecidableEq P]

def setRoot (store : Store P) (target : Option P) : Store P :=
  { store with root := target }

def setLeft (store : Store P) (node : P) (target : Option P) : Store P :=
  { store with
    links := Function.update store.links node
      { store.links node with left := target } }

def setRight (store : Store P) (node : P) (target : Option P) : Store P :=
  { store with
    links := Function.update store.links node
      { store.links node with right := target } }

def setParent (store : Store P) (node : P) (target : Option P) : Store P :=
  { store with
    links := Function.update store.links node
      { store.links node with parent := target } }

/-- Set the parent link of an optional node. -/
def setParent? (store : Store P) (node : Option P) (target : Option P) :
    Store P :=
  match node with
  | none => store
  | some node => store.setParent node target

theorem links_setParent?_of_ne {store : Store P} {node : Option P}
    {target : Option P} {other : P} (hother : node ≠ some other) :
    (store.setParent? node target).links other = store.links other := by
  cases node with
  | none => rfl
  | some node =>
      have hne : other ≠ node := fun heq => hother (by rw [heq])
      simp [setParent?, setParent, Function.update_of_ne hne]

@[simp]
theorem root_setParent? (store : Store P) (node target : Option P) :
    (store.setParent? node target).root = store.root := by
  cases node <;> rfl

/-- Point the link that leads to `old` at `new`. -/
def relink (store : Store P) (old : P) (new : Option P) : Store P :=
  match (store.links old).parent with
  | none => store.setRoot new
  | some parent =>
      if (store.links parent).left = some old then store.setLeft parent new
      else store.setRight parent new

/-- Replace the subtree rooted at `old` by the one rooted at `new`. -/
def transplant (store : Store P) (old : P) (new : Option P) : Store P :=
  (store.relink old new).setParent? new
    ((store.relink old new).links old).parent

private theorem context_update_left {links : P → Links P} {outer : Context P}
    {parent : P} {sibling : Shape P} {hole new : Option P}
    (hcontext : (Context.left outer parent sibling).Realises links hole)
    (hnodup : (Context.left outer parent sibling).nodes.Nodup) :
    (Context.left outer parent sibling).Realises
      (Function.update links parent { links parent with left := new }) new := by
  obtain ⟨hlinks, hsibling, houter⟩ := hcontext
  rw [(Context.nodes_left_perm outer parent sibling).nodup_iff,
    List.nodup_cons] at hnodup
  refine ⟨by simp [hlinks], hsibling.congr ?_, houter.congr ?_⟩
  all_goals
    intro node hnode
    refine Function.update_of_ne (fun heq => hnodup.1 ?_) _ _
    simp [← heq, hnode]

private theorem context_update_right {links : P → Links P} {outer : Context P}
    {parent : P} {sibling : Shape P} {hole new : Option P}
    (hcontext : (Context.right outer sibling parent).Realises links hole)
    (hnodup : (Context.right outer sibling parent).nodes.Nodup) :
    (Context.right outer sibling parent).Realises
      (Function.update links parent { links parent with right := new }) new := by
  obtain ⟨hlinks, hsibling, houter⟩ := hcontext
  rw [(Context.nodes_right_perm outer sibling parent).nodup_iff,
    List.nodup_cons] at hnodup
  refine ⟨by simp [hlinks], hsibling.congr ?_, houter.congr ?_⟩
  all_goals
    intro node hnode
    refine Function.update_of_ne (fun heq => hnodup.1 ?_) _ _
    simp [← heq, hnode]

theorem relink_spec {store : Store P} {context : Context P} {old : P}
    (hfills : store.Fills context old) (new : Option P) :
    (store.relink old new).root = context.rootWith new ∧
      context.Realises (store.relink old new).links new ∧
        ∀ node ∉ context.nodes,
          (store.relink old new).links node = store.links node := by
  obtain ⟨hroot, hcontext, hparent, hnodup, hold⟩ := hfills
  cases context with
  | top =>
      simp only [Context.parent?] at hparent
      simp [relink, hparent, setRoot, Context.rootWith, Context.Realises]
  | left outer parent sibling =>
      have hrelink : store.relink old new = store.setLeft parent new := by
        simp [relink, hparent, Context.parent?, hcontext.1]
      rw [hrelink]
      refine ⟨hroot, context_update_left hcontext hnodup, ?_⟩
      intro node hnode
      refine Function.update_of_ne (fun heq => hnode ?_) _ _
      simp [heq, Context.nodes, Context.after]
  | right outer sibling parent =>
      -- `old` is not the left child: that one belongs to the sibling subtree
      have hleft : (store.links parent).left ≠ some old := by
        rw [hcontext.1]
        intro hsame
        apply hold
        simp [Context.nodes, Context.before, Shape.mem_inorder_of_root? hsame]
      have hrelink : store.relink old new = store.setRight parent new := by
        simp [relink, hparent, Context.parent?, hleft]
      rw [hrelink]
      refine ⟨hroot, context_update_right hcontext hnodup, ?_⟩
      intro node hnode
      refine Function.update_of_ne (fun heq => hnode ?_) _ _
      simp [heq, Context.nodes, Context.before]

/-- Transplanting moves `new` into the hole that `old` filled and touches
nothing else. -/
theorem transplant_spec {store : Store P} {context : Context P} {old : P}
    (hfills : store.Fills context old) (new : Option P)
    (hnew : ∀ node, new = some node → node ∉ context.nodes) :
    (store.transplant old new).root = context.rootWith new ∧
      context.Realises (store.transplant old new).links new ∧
        (∀ node, new = some node →
          (store.transplant old new).links node =
            { store.links node with parent := context.parent? }) ∧
          ∀ node ∉ context.nodes, new ≠ some node →
            (store.transplant old new).links node = store.links node := by
  obtain ⟨hroot, hcontext, hframe⟩ := relink_spec hfills new
  have hparent : ((store.relink old new).links old).parent = context.parent? := by
    rw [hframe old hfills.not_mem, hfills.parent]
  refine ⟨by simpa [transplant] using hroot, ?_, ?_, ?_⟩
  · refine hcontext.congr fun node hnode => links_setParent?_of_ne ?_
    exact fun heq => hnew node heq hnode
  · rintro node rfl
    simp [transplant, setParent?, setParent, hparent, hframe node (hnew node rfl)]
  · intro node hnode hne
    rw [transplant, links_setParent?_of_ne hne, hframe node hnode]

/-- Moving a subtree that hangs elsewhere into the hole. -/
theorem holds_transplant {store : Store P} {context : Context P} {old : P}
    {shape : Shape P} {parent : Option P}
    (hfills : store.Fills context old)
    (hshape : Realises store.links parent shape)
    (hnodup : (context.fill shape).inorder.Nodup) :
    (store.transplant old shape.root?).Holds (context.fill shape) ∧
      ∀ node ∉ (context.fill shape).inorder,
        (store.transplant old shape.root?).links node = store.links node := by
  obtain ⟨-, hshapeNodup, hdisjoint⟩ := Context.nodup_inorder_fill.mp hnodup
  obtain ⟨hroot, hcontext, hmoved, hframe⟩ :=
    transplant_spec hfills shape.root?
      (fun node hnode => hdisjoint node (Shape.mem_inorder_of_root? hnode))
  refine ⟨⟨by rw [hroot, Context.root?_fill], ?_, hnodup⟩, ?_⟩
  · refine realises_fill_iff.mpr ⟨hcontext, hshape.reparent hshapeNodup hmoved ?_⟩
    intro node hnode hne
    exact hframe node (hdisjoint node hnode) hne
  · intro node hnode
    rw [Context.inorder_fill] at hnode
    simp only [List.mem_append, not_or] at hnode
    refine hframe node (by simp [Context.nodes, hnode]) fun heq => ?_
    exact hnode.1.2 (Shape.mem_inorder_of_root? heq)

/-! ## Leftmost nodes -/

/-- Follow left links; `none` when `fuel` descents do not reach the end. -/
def minimum (store : Store P) : ℕ → P → Option P
  | 0, _ => none
  | fuel + 1, node =>
      match (store.links node).left with
      | none => some node
      | some child => store.minimum fuel child

omit [DecidableEq P] in
theorem minimum_eq_head? {store : Store P} {parent : Option P}
    {left right : Shape P} {root : P} {fuel : ℕ}
    (hrealises : Realises store.links parent (.node left root right))
    (hfuel : left.inorder.length < fuel) :
    store.minimum fuel root = (Shape.node left root right).inorder.head? := by
  induction left generalizing parent root right fuel with
  | nil =>
      obtain ⟨fuel, rfl⟩ := Nat.exists_eq_succ_of_ne_zero (by omega : fuel ≠ 0)
      simp [minimum, hrealises.1]
  | node inner child outer ihInner =>
      obtain ⟨fuel, rfl⟩ := Nat.exists_eq_succ_of_ne_zero (by omega : fuel ≠ 0)
      obtain ⟨hroot, hleft, -⟩ := hrealises
      simp only [Shape.inorder_node, List.length_append, List.length_cons] at hfuel
      simp only [minimum, hroot, Shape.root?_node]
      rw [ihInner hleft (by omega)]
      cases inner.inorder <;> simp

/-! ## Deletion -/

/-- Take the successor out of the right subtree of `node` and hang what is
left of that subtree below the successor. -/
def liftSuccessor (store : Store P) (node successor : P) : Store P :=
  let detached := store.transplant successor (store.links successor).right
  let relinked := detached.setRight successor (detached.links node).right
  relinked.setParent? (relinked.links successor).right (some successor)

/-- Put the successor, with its right subtree, in the place of `node` and hang
the left subtree of `node` below it. -/
def replaceBy (store : Store P) (node successor : P) : Store P :=
  let moved := store.transplant node (some successor)
  let relinked := moved.setLeft successor (moved.links node).left
  relinked.setParent? (relinked.links successor).left (some successor)

/-- Unlink a node; its in-order successor moves up when it has two children. -/
def delete (store : Store P) (fuel : ℕ) (node : P) : Option (Store P) :=
  match (store.links node).left, (store.links node).right with
  | none, right => some (store.transplant node right)
  | some left, none => some (store.transplant node (some left))
  | some _, some right => do
      let successor ← store.minimum fuel right
      if (store.links successor).parent = some node then
        return store.replaceBy node successor
      else return (store.liftSuccessor node successor).replaceBy node successor

/-- The successor hangs ready to take the place of `node`: its right subtree
is what remains of the right subtree of `node`. -/
structure Ready (store : Store P) (around : Context P) (left : Shape P)
    (node successor : P) (right : Shape P) : Prop where
  fills : store.Fills around node
  leftLink : (store.links node).left = left.root?
  leftTree : Realises store.links (some node) left
  rightLink : (store.links successor).right = right.root?
  rightTree : Realises store.links (some successor) right
  nodup : (around.fill (.node left successor right)).inorder.Nodup
  not_mem : node ∉ (around.fill (.node left successor right)).inorder

/-- Changing the left link of a node and then the parent link of the subtree
it points to. -/
private theorem links_setLeft_setParent? (store : Store P) {node : P}
    {target : Option P} (htarget : target ≠ some node) :
    ((store.setLeft node target).setParent? target (some node)).links node =
        { store.links node with left := target } ∧
      (∀ other, target = some other →
        ((store.setLeft node target).setParent? target (some node)).links other =
          { store.links other with parent := some node }) ∧
      ∀ other, other ≠ node → target ≠ some other →
        ((store.setLeft node target).setParent? target (some node)).links other =
          store.links other := by
  refine ⟨?_, ?_, ?_⟩
  · rw [links_setParent?_of_ne htarget]
    simp [setLeft]
  · rintro other rfl
    have hne : other ≠ node := fun heq => htarget (by rw [heq])
    simp [setParent?, setParent, setLeft, Function.update_of_ne hne]
  · intro other hne hother
    rw [links_setParent?_of_ne hother]
    simp [setLeft, Function.update_of_ne hne]

private theorem links_setRight_setParent? (store : Store P) {node : P}
    {target : Option P} (htarget : target ≠ some node) :
    ((store.setRight node target).setParent? target (some node)).links node =
        { store.links node with right := target } ∧
      (∀ other, target = some other →
        ((store.setRight node target).setParent? target (some node)).links other =
          { store.links other with parent := some node }) ∧
      ∀ other, other ≠ node → target ≠ some other →
        ((store.setRight node target).setParent? target (some node)).links other =
          store.links other := by
  refine ⟨?_, ?_, ?_⟩
  · rw [links_setParent?_of_ne htarget]
    simp [setRight]
  · rintro other rfl
    have hne : other ≠ node := fun heq => htarget (by rw [heq])
    simp [setParent?, setParent, setRight, Function.update_of_ne hne]
  · intro other hne hother
    rw [links_setParent?_of_ne hother]
    simp [setRight, Function.update_of_ne hne]

theorem replaceBy_holds {store : Store P} {context : Context P}
    {left right : Shape P} {node successor : P}
    (hready : store.Ready context left node successor right) :
    (store.replaceBy node successor).Holds
        (context.fill (.node left successor right)) ∧
      ∀ other ∉ (context.fill (.node left successor right)).inorder,
        (store.replaceBy node successor).links other = store.links other := by
  obtain ⟨hfills, hleftLink, hleftTree, hrightLink, hrightTree, hnodup, hnode⟩ :=
    hready
  obtain ⟨-, hshape, hdisjoint⟩ := Context.nodup_inorder_fill.mp hnodup
  simp only [Shape.inorder_node, List.nodup_append', List.nodup_cons] at hshape
  obtain ⟨hleftNodup, ⟨hsuccRight, hrightNodup⟩, hleftRight⟩ := hshape
  have hsuccLeft : successor ∉ left.inorder := fun hmem =>
    hleftRight hmem (by simp)
  have hsuccContext := hdisjoint successor (by simp)
  simp only [Context.inorder_fill, Shape.inorder_node, List.mem_append,
    List.mem_cons, not_or] at hnode
  obtain ⟨hroot, hcontext, hmoved, hframe⟩ := transplant_spec hfills
    (some successor) (by rintro other ⟨rfl⟩; exact hsuccContext)
  set moved := store.transplant node (some successor) with hmovedDef
  have hmovedNode : moved.links node = store.links node :=
    hframe node hfills.not_mem (by simpa using Ne.symm hnode.1.2.2.1)
  have hreplace : store.replaceBy node successor =
      (moved.setLeft successor left.root?).setParent? left.root?
        (some successor) := by
    simp [replaceBy, ← hmovedDef, hmovedNode, hleftLink, setLeft]
  have hleftRoot : left.root? ≠ some successor := fun heq =>
    hsuccLeft (Shape.mem_inorder_of_root? heq)
  obtain ⟨hself, hchild, hrest⟩ := links_setLeft_setParent? moved hleftRoot
  rw [hreplace]
  have hunmoved : ∀ other ∉ context.nodes, other ≠ successor →
      moved.links other = store.links other := fun other hother hne =>
    hframe other hother (by simpa using Ne.symm hne)
  refine ⟨⟨?_, realises_fill_iff.mpr ⟨?_, ?_, ?_, ?_⟩, hnodup⟩, ?_⟩
  · simpa [Context.root?_fill, setLeft] using hroot
  · refine hcontext.congr fun other hother => hrest other ?_ fun heq => ?_
    · rintro rfl
      exact hsuccContext hother
    · exact hdisjoint other (by simp [Shape.mem_inorder_of_root? heq]) hother
  · simp [hself, hmoved successor rfl, hrightLink]
  · refine hleftTree.reparent hleftNodup (fun other hother => ?_)
      fun other hother hne => ?_
    · have hmem := Shape.mem_inorder_of_root? hother
      have hne : other ≠ successor := fun heq => hsuccLeft (heq ▸ hmem)
      rw [hchild other hother, hunmoved other (hdisjoint other (by simp [hmem])) hne]
    · have hneSucc : other ≠ successor := fun heq => hsuccLeft (heq ▸ hother)
      rw [hrest other hneSucc hne,
        hunmoved other (hdisjoint other (by simp [hother])) hneSucc]
  · refine hrightTree.congr fun other hother => ?_
    have hneSucc : other ≠ successor := fun heq => hsuccRight (heq ▸ hother)
    have hneLeft : left.root? ≠ some other := fun heq =>
      hleftRight (Shape.mem_inorder_of_root? heq) (by simp [hother])
    rw [hrest other hneSucc hneLeft,
      hunmoved other (hdisjoint other (by simp [hother])) hneSucc]
  · intro other hother
    simp only [Context.inorder_fill, Shape.inorder_node, List.mem_append,
      List.mem_cons, not_or] at hother
    have hneLeft : left.root? ≠ some other := fun heq =>
      hother.1.2.1 (Shape.mem_inorder_of_root? heq)
    rw [hrest other hother.1.2.2.1 hneLeft,
      hunmoved other (by simp [Context.nodes, hother]) hother.1.2.2.1]

theorem liftSuccessor_ready {store : Store P} {context spine : Context P}
    {left rest : Shape P} {node successor : P}
    (hholds : store.Holds (context.fill (.node left node
      (spine.fill (.node .nil successor rest))))) :
    (store.liftSuccessor node successor).Ready context left node successor
        (spine.fill rest) ∧
      ∀ other ∉ (context.fill (.node left node
          (spine.fill (.node .nil successor rest)))).inorder,
        (store.liftSuccessor node successor).links other = store.links other := by
  -- the successor sits in the context made of `context`, `node` and the spine
  set full := (Context.right context left node).comp spine with hfull
  have hwhole : ∀ shape, context.fill (.node left node (spine.fill shape)) =
      full.fill shape := by
    intro shape
    rw [hfull, Context.fill_comp, Context.fill]
  rw [hwhole] at hholds
  have hfills := hholds.fills
  obtain ⟨-, hfullLinks, hfullNodup⟩ := hholds
  obtain ⟨-, hsuccLinks, -, hrestTree⟩ := realises_fill_iff.mp hfullLinks
  have hsuccRight : (store.links successor).right = rest.root? := by
    rw [hsuccLinks]
  have hperm : (full.fill (.node .nil successor rest)).inorder.Perm
      (successor :: (full.fill rest).inorder) := by
    simp [Context.inorder_fill]
  have hsplit := hperm.nodup_iff.mp hfullNodup
  obtain ⟨hsuccFresh, hrestNodup⟩ := List.nodup_cons.mp hsplit
  obtain ⟨hdetached, hframe⟩ := holds_transplant hfills hrestTree hrestNodup
  set detached := store.transplant successor rest.root? with hdetachedDef
  rw [← hwhole] at hdetached hsuccFresh hrestNodup hframe
  have hnodeFills := hdetached.fills
  obtain ⟨-, hnodeLinks, hleftTree, hrightTree⟩ :=
    realises_fill_iff.mp hdetached.links
  have hsuccLink : detached.links successor = store.links successor :=
    hframe successor hsuccFresh
  set remaining := spine.fill rest with hremaining
  have hlift : store.liftSuccessor node successor =
      (detached.setRight successor remaining.root?).setParent? remaining.root?
        (some successor) := by
    simp [liftSuccessor, hsuccRight, ← hdetachedDef, hnodeLinks, setRight]
  obtain ⟨-, hnodupShape, hdisjoint⟩ := Context.nodup_inorder_fill.mp hrestNodup
  simp only [Shape.inorder_node, List.nodup_append', List.nodup_cons] at hnodupShape
  obtain ⟨hleftNodup, ⟨hnodeRight, hrightNodup⟩, hleftRight⟩ := hnodupShape
  have hfresh := hsuccFresh
  simp only [Context.inorder_fill, Shape.inorder_node, List.mem_append,
    List.mem_cons, not_or] at hfresh
  have hrootSucc : remaining.root? ≠ some successor := fun heq =>
    hfresh.1.2.2.2 (Shape.mem_inorder_of_root? heq)
  obtain ⟨hself, hchild, hrest⟩ := links_setRight_setParent? detached hrootSucc
  rw [hlift]
  have hnodeRest : remaining.root? ≠ some node := fun heq =>
    hnodeRight (Shape.mem_inorder_of_root? heq)
  have hnodeSame := hrest node (Ne.symm hfresh.1.2.2.1) hnodeRest
  refine ⟨?_, ?_⟩
  · refine ⟨⟨?_, ?_, ?_, hnodeFills.nodup, hnodeFills.not_mem⟩, ?_, ?_, ?_, ?_, ?_, ?_⟩
    · simpa [setRight] using hnodeFills.root
    · refine hnodeFills.context.congr fun other hother => hrest other ?_ fun heq => ?_
      · rintro rfl
        rcases List.mem_append.mp hother with hbefore | hafter
        · exact hfresh.1.1 hbefore
        · exact hfresh.2 hafter
      · exact hdisjoint other (by simp [Shape.mem_inorder_of_root? heq]) hother
    · rw [hnodeSame, hnodeFills.parent]
    · rw [hnodeSame, hnodeLinks]
    · refine hleftTree.congr fun other hother => hrest other ?_ fun heq => ?_
      · rintro rfl
        exact hfresh.1.2.1 hother
      · exact hleftRight hother (by simp [Shape.mem_inorder_of_root? heq])
    · rw [hself]
    · refine hrightTree.reparent hrightNodup hchild fun other hother hne => ?_
      refine hrest other ?_ hne
      rintro rfl
      exact hfresh.1.2.2.2 hother
    · rw [(Context.inorder_fill_node_perm _ _ _ _).nodup_iff, List.nodup_cons]
      refine ⟨by simp [hfresh], ?_⟩
      rw [(Context.inorder_fill_node_perm _ _ _ _).nodup_iff] at hrestNodup
      exact hrestNodup.of_cons
    · rw [(Context.inorder_fill_node_perm _ _ _ _).nodup_iff,
        List.nodup_cons] at hrestNodup
      rw [(Context.inorder_fill_node_perm _ _ _ _).mem_iff, List.mem_cons, not_or]
      exact ⟨Ne.symm hfresh.1.2.2.1, hrestNodup.1⟩
  · intro other hother
    rw [hwhole, hperm.mem_iff, List.mem_cons, not_or] at hother
    have hframed := hframe other (by rw [hremaining, hwhole]; exact hother.2)
    refine (hrest other hother.1 fun heq => hother.2 ?_).trans hframed
    rw [← hwhole, ← hremaining]
    simp [Context.inorder_fill, Shape.mem_inorder_of_root? heq]

omit [DecidableEq P] in
/-- A successor without a left child that is itself the right child is ready
as it stands. -/
private theorem ready_of_child {store : Store P} {context : Context P}
    {left rest : Shape P} {node successor : P}
    (hholds : store.Holds (context.fill (.node left node
      (.node .nil successor rest)))) :
    store.Ready context left node successor rest := by
  obtain ⟨-, hlinks, hleftTree, hsucc, -, hrest⟩ :=
    realises_fill_iff.mp hholds.links
  have hnodup := (Context.inorder_fill_node_perm context left
    (.node .nil successor rest) node).nodup_iff.mp hholds.nodup
  obtain ⟨hnode, htail⟩ := List.nodup_cons.mp hnodup
  have hsame : context.before ++ (left.inorder ++
      (Shape.node .nil successor rest).inorder) ++ context.after =
        (context.fill (.node left successor rest)).inorder := by
    simp [Context.inorder_fill]
  rw [hsame] at hnode htail
  exact {
    fills := hholds.fills
    leftLink := by rw [hlinks]
    leftTree := hleftTree
    rightLink := by rw [hsucc]
    rightTree := hrest
    nodup := htail
    not_mem := hnode }

omit [DecidableEq P] in
/-- The successor's parent is the deleted node only when it is its right
child. -/
private theorem spine_eq_top {store : Store P} {context spine : Context P}
    {left rest : Shape P} {node successor : P}
    (hholds : store.Holds (context.fill (.node left node
      (spine.fill (.node .nil successor rest)))))
    (hparent : (store.links successor).parent = some node) : spine = .top := by
  by_contra hspine
  have hwhole : context.fill (.node left node
      (spine.fill (.node .nil successor rest))) =
        ((Context.right context left node).comp spine).fill
          (.node .nil successor rest) := by
    rw [Context.fill_comp, Context.fill]
  obtain ⟨parent, hmem, hspineParent⟩ :=
    Context.parent?_eq_some_of_ne_top hspine
  have hnodup := (Context.inorder_fill_node_perm context left
    (spine.fill (.node .nil successor rest)) node).nodup_iff.mp hholds.nodup
  rw [hwhole] at hholds
  have hlink := hholds.fills.parent
  rw [Context.parent?_comp_of_ne_top hspine, hspineParent, hparent,
    Option.some.injEq] at hlink
  subst hlink
  refine (List.nodup_cons.mp hnodup).1 ?_
  simp only [Context.nodes, List.mem_append] at hmem
  simp only [Context.inorder_fill, List.mem_append]
  tauto

/-- Deleting a node of the tree succeeds, leaves the shape in which the two
subtrees of the node are joined, and touches no node outside the tree. -/
theorem delete_holds {store : Store P} {context : Context P}
    {left right : Shape P} {node : P} {fuel : ℕ}
    (hholds : store.Holds (context.fill (.node left node right)))
    (hfuel : right.inorder.length ≤ fuel) :
    ∃ after, store.delete fuel node = some after ∧
      after.Holds (context.fill (left.join right)) ∧
        ∀ other ∉ (context.fill (.node left node right)).inorder,
          after.links other = store.links other := by
  have hfills := hholds.fills
  obtain ⟨-, hlinks, hleftTree, hrightTree⟩ := realises_fill_iff.mp hholds.links
  have hperm := Context.inorder_fill_node_perm context left right node
  have hnodup := (hperm.nodup_iff.mp hholds.nodup).of_cons
  have hsub : ∀ {other}, other ∉ (context.fill (.node left node right)).inorder →
      other ∉ (context.fill (left.join right)).inorder := by
    intro other hother hmem
    refine hother (hperm.mem_iff.mpr (List.mem_cons_of_mem _ ?_))
    simpa [Context.inorder_fill, Shape.inorder_join] using hmem
  cases left with
  | nil =>
      obtain ⟨hafter, hframe⟩ := holds_transplant hfills hrightTree
        (by simpa [Context.inorder_fill] using hnodup)
      exact ⟨_, by simp [delete, hlinks], hafter,
        fun other hother => hframe other (hsub hother)⟩
  | node inner child outer =>
      cases right with
      | nil =>
          obtain ⟨hafter, hframe⟩ := holds_transplant hfills hleftTree
            (by simpa [Context.inorder_fill] using hnodup)
          exact ⟨_, by simp [delete, hlinks], hafter,
            fun other hother => hframe other (hsub hother)⟩
      | node rightInner rightRoot rightOuter =>
          obtain ⟨spine, successor, rest, hfill, hremove, hfirst⟩ :=
            exists_fill_removeMin rightInner rightRoot rightOuter
          have hminimum : store.minimum fuel rightRoot = some successor := by
            rw [minimum_eq_head? hrightTree (by simp at hfuel; omega), hfirst]
          have hjoin : (Shape.node inner child outer).join
              (.node rightInner rightRoot rightOuter) =
                .node (.node inner child outer) successor (spine.fill rest) := by
            simp only [Shape.join, hfirst, hremove]
          rw [hjoin] at hsub ⊢
          rw [hfill] at hholds
          by_cases hparent : (store.links successor).parent = some node
          · have htop := spine_eq_top hholds hparent
            subst htop
            obtain ⟨hafter, hframe⟩ := replaceBy_holds (ready_of_child hholds)
            exact ⟨_, by simp [delete, hlinks, hminimum, hparent], hafter,
              fun other hother => hframe other (hsub hother)⟩
          · obtain ⟨hready, hlifted⟩ := liftSuccessor_ready hholds
            obtain ⟨hafter, hframe⟩ := replaceBy_holds hready
            refine ⟨_, by simp [delete, hlinks, hminimum, hparent], hafter, ?_⟩
            intro other hother
            rw [hframe other (hsub hother), hlifted other (by rwa [← hfill])]

/-! ## Insertion -/

/-- Walk down from `current`; the result is the last node passed. -/
def descend (store : Store P) (goLeft : P → Bool) :
    ℕ → Option P → Option P → Option (Option P)
  | _, none, parent => some parent
  | 0, some _, _ => none
  | fuel + 1, some current, _ =>
      store.descend goLeft fuel
        (if goLeft current then (store.links current).left
          else (store.links current).right) (some current)

/-- Hang `node` below `parent`, on the side the direction asks for. -/
def attach (store : Store P) (goLeft : P → Bool) (node parent : P) : Store P :=
  let linked := store.setParent node (some parent)
  if goLeft parent then linked.setLeft parent (some node)
  else linked.setRight parent (some node)

/-- Insert a node whose links are all empty. -/
def insert (store : Store P) (fuel : ℕ) (goLeft : P → Bool) (node : P) :
    Option (Store P) :=
  match store.root with
  | none => some (store.setRoot (some node))
  | some root => do
      let parent ← store.descend goLeft fuel (some root) none
      parent.map (store.attach goLeft node)

omit [DecidableEq P] in
/-- The descent ends at a hole of the tree; filling that hole with the new leaf
is insertion on shapes. -/
theorem descend_spec {store : Store P} {goLeft : P → Bool} (node : P)
    {context : Context P} {shape : Shape P} {fuel : ℕ}
    (hdirected : context.Directed goLeft)
    (hshape : Realises store.links context.parent? shape)
    (hfuel : shape.inorder.length ≤ fuel) :
    ∃ hole : Context P, hole.Directed goLeft ∧
      store.descend goLeft fuel shape.root? context.parent? =
          some hole.parent? ∧
        hole.fill .nil = context.fill shape ∧
          hole.fill (.node .nil node .nil) =
            context.fill (shape.insert goLeft node) := by
  induction shape generalizing context fuel with
  | nil =>
      refine ⟨context, hdirected, ?_, rfl, rfl⟩
      cases fuel <;> rfl
  | node left root right ihLeft ihRight =>
      obtain ⟨hroot, hleft, hright⟩ := hshape
      simp only [Shape.inorder_node, List.length_append, List.length_cons] at hfuel
      obtain ⟨fuel, rfl⟩ := Nat.exists_eq_succ_of_ne_zero (by omega : fuel ≠ 0)
      cases hgo : goLeft root with
      | true =>
          have hside : (Context.left context root right).Directed goLeft := hgo
          have hlength : left.inorder.length ≤ fuel := by omega
          obtain ⟨hole, hhole, hdescend, hnil, hleaf⟩ := ihLeft hside hleft hlength
          refine ⟨hole, hhole, ?_, hnil, ?_⟩
          · simpa [descend, hroot, hgo, Context.parent?] using hdescend
          · simpa [Shape.insert, hgo, Context.fill] using hleaf
      | false =>
          have hside : (Context.right context left root).Directed goLeft := hgo
          have hlength : right.inorder.length ≤ fuel := by omega
          obtain ⟨hole, hhole, hdescend, hnil, hleaf⟩ := ihRight hside hright hlength
          refine ⟨hole, hhole, ?_, hnil, ?_⟩
          · simpa [descend, hroot, hgo, Context.parent?] using hdescend
          · simpa [Shape.insert, hgo, Context.fill] using hleaf

/-- Attaching a leaf fills the hole below `parent`. -/
theorem attach_spec {store : Store P} {goLeft : P → Bool} {node parent : P}
    {hole : Context P} (hdirected : hole.Directed goLeft)
    (hparent : hole.parent? = some parent)
    (hcontext : hole.Realises store.links none) (hnodup : hole.nodes.Nodup)
    (hnode : node ∉ hole.nodes)
    (hlinks : store.links node = ⟨none, none, none⟩) :
    hole.Realises (store.attach goLeft node parent).links (some node) ∧
      (store.attach goLeft node parent).links node = ⟨none, none, some parent⟩ ∧
        (store.attach goLeft node parent).root = store.root ∧
          ∀ other ∉ hole.nodes, other ≠ node →
            (store.attach goLeft node parent).links other = store.links other := by
  have hlinked : hole.Realises (store.setParent node (some parent)).links none :=
    hcontext.congr fun other hother => Function.update_of_ne
      (ne_of_mem_of_not_mem hother hnode) _ _
  have hself : (store.setParent node (some parent)).links node =
      ⟨none, none, some parent⟩ := by
    simp [setParent, hlinks]
  cases hole with
  | top => simp [Context.parent?] at hparent
  | left outer top sibling =>
      obtain rfl : top = parent := by simpa [Context.parent?] using hparent
      have hmem : top ∈ (Context.left outer top sibling).nodes := by
        simp [Context.nodes, Context.after]
      have hattach : store.attach goLeft node top =
          (store.setParent node (some top)).setLeft top (some node) := by
        simp only [Context.Directed] at hdirected
        simp [attach, hdirected]
      rw [hattach]
      refine ⟨context_update_left hlinked hnodup, ?_, rfl, ?_⟩
      · rw [← hself]
        exact Function.update_of_ne (ne_of_mem_of_not_mem hmem hnode).symm _ _
      · intro other hother hne
        have hneTop : other ≠ top := fun heq => hother (heq ▸ hmem)
        simp [setLeft, setParent, Function.update_of_ne hneTop,
          Function.update_of_ne hne]
  | right outer sibling top =>
      obtain rfl : top = parent := by simpa [Context.parent?] using hparent
      have hmem : top ∈ (Context.right outer sibling top).nodes := by
        simp [Context.nodes, Context.before]
      have hattach : store.attach goLeft node top =
          (store.setParent node (some top)).setRight top (some node) := by
        simp only [Context.Directed] at hdirected
        simp [attach, hdirected]
      rw [hattach]
      refine ⟨context_update_right hlinked hnodup, ?_, rfl, ?_⟩
      · rw [← hself]
        exact Function.update_of_ne (ne_of_mem_of_not_mem hmem hnode).symm _ _
      · intro other hother hne
        have hneTop : other ≠ top := fun heq => hother (heq ▸ hmem)
        simp [setRight, setParent, Function.update_of_ne hneTop,
          Function.update_of_ne hne]

/-- Inserting an unlinked node succeeds and leaves the shape with that leaf
added. -/
theorem insert_holds {store : Store P} {shape : Shape P} {node : P}
    {fuel : ℕ} (goLeft : P → Bool) (hholds : store.Holds shape)
    (hnode : node ∉ shape.inorder)
    (hlinks : store.links node = ⟨none, none, none⟩)
    (hfuel : shape.inorder.length ≤ fuel) :
    ∃ after, store.insert fuel goLeft node = some after ∧
      after.Holds (shape.insert goLeft node) ∧
        ∀ other ∉ shape.inorder, other ≠ node →
          after.links other = store.links other := by
  cases shape with
  | nil =>
      refine ⟨store.setRoot (some node), by simp [insert, hholds.root], ?_, ?_⟩
      · exact ⟨rfl, ⟨hlinks, trivial, trivial⟩, by simp [Shape.insert]⟩
      · intro other _ _
        rfl
  | node left root right =>
      have htop : (Context.top : Context P).Directed goLeft := trivial
      obtain ⟨hole, hdirected, hdescend, hnil, hleaf⟩ :=
        descend_spec node htop hholds.links hfuel
      simp only [Context.fill] at hnil hleaf
      rw [← hnil] at hnode hholds
      have hrealises := (realises_fill_iff.mp hholds.links).1
      have hnodup := (Context.nodup_inorder_fill.mp hholds.nodup).1
      have hmem : ∀ other, other ∈ (hole.fill .nil).inorder ↔
          other ∈ hole.nodes := by
        simp [Context.inorder_fill, Context.nodes]
      rw [hmem] at hnode
      have hparent : ∃ parent, hole.parent? = some parent := by
        cases hole with
        | top => simp [Context.fill] at hnil
        | left outer parent sibling => exact ⟨parent, rfl⟩
        | right outer sibling parent => exact ⟨parent, rfl⟩
      obtain ⟨parent, hparent⟩ := hparent
      obtain ⟨hcontext, hself, hroot, hframe⟩ :=
        attach_spec hdirected hparent hrealises hnodup hnode hlinks
      have hstart : store.root = some root := by
        rw [hholds.root, hnil, Shape.root?_node]
      refine ⟨store.attach goLeft node parent, ?_, ⟨?_, ?_, ?_⟩, ?_⟩
      · rw [hparent] at hdescend
        change store.descend goLeft fuel (some root) none = _ at hdescend
        simp [insert, hstart, hdescend]
      · rw [hroot, hstart, Shape.insert]
        split <;> rfl
      · rw [← hleaf]
        exact realises_fill_iff.mpr ⟨hcontext, by rw [hself, hparent]; rfl,
          trivial, trivial⟩
      · rw [← hleaf, Context.nodup_inorder_fill]
        simpa using ⟨hnodup, hnode⟩
      · intro other hother hne
        rw [← hnil, hmem] at hother
        exact hframe other hother hne

end Store

end Flurry.LinkedTree
