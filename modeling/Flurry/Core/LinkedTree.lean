import Mathlib

/-!
# Binary trees stored as linked nodes

Nodes live in a store that gives each of them a left, a right and a parent
link.  A store realises a finite shape when its links are exactly the ones the
shape prescribes.  A one-hole context isolates the part of a store that a
pointer surgery leaves alone, so that every surgery is stated once, at the
hole, and transported through the context.
-/

namespace Flurry.LinkedTree

/-- The link fields of one node. -/
@[ext]
structure Links (P : Type*) where
  left : Option P
  right : Option P
  parent : Option P
  deriving DecidableEq

/-- A root pointer together with the link fields of every node. -/
structure Store (P : Type*) where
  root : Option P
  links : P → Links P

/-- The shape of a finite binary tree of nodes. -/
inductive Shape (P : Type*) where
  | nil
  | node (left : Shape P) (root : P) (right : Shape P)

namespace Shape

variable {P : Type*}

def inorder : Shape P → List P
  | nil => []
  | node left root right => left.inorder ++ root :: right.inorder

def root? : Shape P → Option P
  | nil => none
  | node _ root _ => some root

@[simp]
theorem inorder_nil : (nil : Shape P).inorder = [] := rfl

@[simp]
theorem inorder_node (left right : Shape P) (root : P) :
    (node left root right).inorder =
      left.inorder ++ root :: right.inorder := rfl

@[simp]
theorem root?_nil : (nil : Shape P).root? = none := rfl

@[simp]
theorem root?_node (left right : Shape P) (root : P) :
    (node left root right).root? = some root := rfl

theorem mem_inorder_of_root? {shape : Shape P} {root : P}
    (hroot : shape.root? = some root) : root ∈ shape.inorder := by
  cases shape with
  | nil => simp at hroot
  | node left top right =>
      simp only [root?_node, Option.some.injEq] at hroot
      simp [hroot]

theorem exists_root?_of_mem {shape : Shape P} {node : P}
    (hmem : node ∈ shape.inorder) : ∃ root, shape.root? = some root := by
  cases shape with
  | nil => simp at hmem
  | node left root right => exact ⟨root, rfl⟩

/-- The shape without its first node in order. -/
def removeMin : Shape P → Shape P
  | nil => nil
  | node nil _ right => right
  | node (node left root right) top outer =>
      node (removeMin (node left root right)) top outer

theorem inorder_removeMin (shape : Shape P) :
    shape.removeMin.inorder = shape.inorder.tail := by
  induction shape with
  | nil => rfl
  | node left root right ihLeft =>
      cases left with
      | nil => rfl
      | node inner top outer =>
          simp only [removeMin, inorder_node, ihLeft]
          cases inner.inorder <;> simp

/-- The shape left behind when the root of `node left root right` goes away:
a missing child is bypassed, otherwise the first node of the right subtree
takes the root's place. -/
def join : Shape P → Shape P → Shape P
  | nil, right => right
  | left, right =>
      match right.inorder.head? with
      | none => left
      | some successor => node left successor right.removeMin

theorem inorder_join (left right : Shape P) :
    (join left right).inorder = left.inorder ++ right.inorder := by
  cases left with
  | nil => rfl
  | node inner root outer =>
      simp only [join]
      cases hright : right.inorder with
      | nil => simp
      | cons successor rest => simp [inorder_removeMin, hright]

/-- Insert a leaf at the end of the path that `goLeft` chooses. -/
def insert (goLeft : P → Bool) (leaf : P) : Shape P → Shape P
  | nil => node nil leaf nil
  | node left root right =>
      if goLeft root then node (insert goLeft leaf left) root right
      else node left root (insert goLeft leaf right)

end Shape

/-- A shape with one subtree missing. -/
inductive Context (P : Type*) where
  | top
  | left (outer : Context P) (parent : P) (right : Shape P)
  | right (outer : Context P) (left : Shape P) (parent : P)

namespace Context

variable {P : Type*}

def fill : Context P → Shape P → Shape P
  | top, shape => shape
  | left outer parent sibling, shape => outer.fill (.node shape parent sibling)
  | right outer sibling parent, shape => outer.fill (.node sibling parent shape)

/-- The parent link of whatever fills the hole. -/
def parent? : Context P → Option P
  | top => none
  | left _ parent _ => some parent
  | right _ _ parent => some parent

/-- The root pointer of the filled context. -/
def rootWith : Context P → Option P → Option P
  | top, hole => hole
  | left outer parent _, _ => outer.rootWith (some parent)
  | right outer _ parent, _ => outer.rootWith (some parent)

/-- Nodes that come before the hole in order. -/
def before : Context P → List P
  | top => []
  | left outer _ _ => outer.before
  | right outer sibling parent => outer.before ++ (sibling.inorder ++ [parent])

/-- Nodes that come after the hole in order. -/
def after : Context P → List P
  | top => []
  | left outer parent sibling => parent :: sibling.inorder ++ outer.after
  | right outer _ _ => outer.after

def nodes (context : Context P) : List P :=
  context.before ++ context.after

/-- Put `inner` into the hole of the first context. -/
def comp (outer : Context P) : Context P → Context P
  | top => outer
  | left inner parent sibling => left (outer.comp inner) parent sibling
  | right inner sibling parent => right (outer.comp inner) sibling parent

/-- The hole lies on the side of its parent that `goLeft` chooses. -/
def Directed (goLeft : P → Bool) : Context P → Prop
  | top => True
  | left _ parent _ => goLeft parent = true
  | right _ _ parent => goLeft parent = false

theorem inorder_fill (context : Context P) (shape : Shape P) :
    (context.fill shape).inorder =
      context.before ++ shape.inorder ++ context.after := by
  induction context generalizing shape with
  | top => simp [fill, before, after]
  | left outer parent sibling ih => simp [fill, before, after, ih]
  | right outer sibling parent ih => simp [fill, before, after, ih]

theorem root?_fill (context : Context P) (shape : Shape P) :
    (context.fill shape).root? = context.rootWith shape.root? := by
  induction context generalizing shape with
  | top => rfl
  | left outer parent sibling ih => simp [fill, rootWith, ih]
  | right outer sibling parent ih => simp [fill, rootWith, ih]

theorem fill_comp (outer inner : Context P) (shape : Shape P) :
    (outer.comp inner).fill shape = outer.fill (inner.fill shape) := by
  induction inner generalizing shape with
  | top => rfl
  | left inner parent sibling ih => simp [comp, fill, ih]
  | right inner sibling parent ih => simp [comp, fill, ih]

theorem parent?_comp_of_ne_top {outer inner : Context P} (hinner : inner ≠ top) :
    (outer.comp inner).parent? = inner.parent? := by
  cases inner with
  | top => exact absurd rfl hinner
  | left inner parent sibling => rfl
  | right inner sibling parent => rfl

theorem parent?_eq_some_of_ne_top {context : Context P} (hcontext : context ≠ top) :
    ∃ parent ∈ context.nodes, context.parent? = some parent := by
  cases context with
  | top => exact absurd rfl hcontext
  | left outer parent sibling => exact ⟨parent, by simp [nodes, after], rfl⟩
  | right outer sibling parent => exact ⟨parent, by simp [nodes, before], rfl⟩

/-- The filled context with one node of the filling singled out. -/
theorem inorder_fill_node_perm (context : Context P) (left right : Shape P)
    (node : P) :
    (context.fill (.node left node right)).inorder.Perm
      (node :: (context.before ++ (left.inorder ++ right.inorder) ++
        context.after)) := by
  have hmiddle : ((context.before ++ left.inorder) ++
      node :: (right.inorder ++ context.after)).Perm
        (node :: ((context.before ++ left.inorder) ++
          (right.inorder ++ context.after))) := List.perm_middle
  simpa [inorder_fill, List.append_assoc] using hmiddle

theorem nodes_left_perm (outer : Context P) (parent : P) (sibling : Shape P) :
    (left outer parent sibling).nodes.Perm
      (parent :: (sibling.inorder ++ outer.nodes)) := by
  have hmiddle : (outer.before ++ parent :: (sibling.inorder ++ outer.after)).Perm
      (parent :: (outer.before ++ (sibling.inorder ++ outer.after))) :=
    List.perm_middle
  refine hmiddle.trans (List.Perm.cons parent ?_)
  have hcomm : (outer.before ++ sibling.inorder).Perm
      (sibling.inorder ++ outer.before) := List.perm_append_comm
  simpa [nodes] using hcomm.append_right outer.after

theorem nodes_right_perm (outer : Context P) (sibling : Shape P) (parent : P) :
    (right outer sibling parent).nodes.Perm
      (parent :: (sibling.inorder ++ outer.nodes)) := by
  have hmiddle : (outer.before ++ sibling.inorder ++ parent :: outer.after).Perm
      (parent :: (outer.before ++ sibling.inorder ++ outer.after)) :=
    List.perm_middle
  have hcomm : (outer.before ++ sibling.inorder).Perm
      (sibling.inorder ++ outer.before) := List.perm_append_comm
  have hswap := List.Perm.cons parent (hcomm.append_right outer.after)
  simpa [nodes, before, after] using hmiddle.trans hswap

/-- The filled context has no repeated node exactly when neither part repeats
a node and the two parts share none. -/
theorem nodup_inorder_fill {context : Context P} {shape : Shape P} :
    (context.fill shape).inorder.Nodup ↔
      context.nodes.Nodup ∧ shape.inorder.Nodup ∧
        ∀ node ∈ shape.inorder, node ∉ context.nodes := by
  have hperm : (context.before ++ shape.inorder ++ context.after).Perm
      (shape.inorder ++ context.nodes) := by
    have hcomm : (context.before ++ shape.inorder).Perm
        (shape.inorder ++ context.before) := List.perm_append_comm
    simpa [nodes, List.append_assoc] using hcomm.append_right context.after
  rw [inorder_fill, hperm.nodup_iff, List.nodup_append']
  simp only [List.Disjoint]
  tauto

/-- Every node of a shape is the root of a subtree. -/
theorem exists_fill_of_mem {shape : Shape P} {node : P}
    (hmem : node ∈ shape.inorder) :
    ∃ (context : Context P) (left right : Shape P),
      shape = context.fill (.node left node right) := by
  induction shape with
  | nil => simp at hmem
  | node left root right ihLeft ihRight =>
      simp only [Shape.inorder_node, List.mem_append, List.mem_cons] at hmem
      rcases hmem with hleft | rfl | hright
      · obtain ⟨inner, lower, upper, hfill⟩ := ihLeft hleft
        refine ⟨(Context.left top root right).comp inner, lower, upper, ?_⟩
        rw [fill_comp, ← hfill, fill, fill]
      · exact ⟨top, left, right, rfl⟩
      · obtain ⟨inner, lower, upper, hfill⟩ := ihRight hright
        refine ⟨(Context.right top left root).comp inner, lower, upper, ?_⟩
        rw [fill_comp, ← hfill, fill, fill]

/-- Joining the two subtrees of a node removes exactly that node. -/
theorem inorder_fill_join [DecidableEq P] {context : Context P}
    {left right : Shape P} {node : P}
    (hnodup : (context.fill (.node left node right)).inorder.Nodup) :
    (context.fill (left.join right)).inorder =
      (context.fill (.node left node right)).inorder.erase node := by
  have hfresh := ((inorder_fill_node_perm context left right node).nodup_iff.mp
    hnodup)
  have hnode := (List.nodup_cons.mp hfresh).1
  simp only [List.mem_append, not_or] at hnode
  have hbefore : node ∉ context.before ++ left.inorder := by simp [hnode]
  have hsplit : (context.fill (.node left node right)).inorder =
      (context.before ++ left.inorder) ++
        node :: (right.inorder ++ context.after) := by
    simp [inorder_fill]
  rw [hsplit, List.erase_append_right _ hbefore, List.erase_cons_head,
    inorder_fill, Shape.inorder_join]
  simp

end Context

/-- A nonempty shape is its first node, with that node's right subtree, below
a chain of left links. -/
theorem exists_fill_removeMin {P : Type*} (left : Shape P) (root : P)
    (right : Shape P) :
    ∃ (spine : Context P) (first : P) (rest : Shape P),
      Shape.node left root right = spine.fill (.node .nil first rest) ∧
        (Shape.node left root right).removeMin = spine.fill rest ∧
          (Shape.node left root right).inorder.head? = some first := by
  induction left generalizing root right with
  | nil => exact ⟨.top, root, right, rfl, rfl, rfl⟩
  | node inner child outer ihInner =>
      obtain ⟨spine, first, rest, hfill, hremove, hfirst⟩ := ihInner child outer
      refine ⟨(Context.left .top root right).comp spine, first, rest, ?_, ?_, ?_⟩
      · rw [Context.fill_comp, ← hfill, Context.fill, Context.fill]
      · rw [Context.fill_comp, ← hremove, Context.fill, Context.fill,
          Shape.removeMin]
      · simp only [Shape.inorder_node] at hfirst ⊢
        cases hinner : inner.inorder <;> simp_all

section Realisation

variable {P : Type*}

/-- The links below `parent` are the ones the shape prescribes. -/
def Realises (links : P → Links P) : Option P → Shape P → Prop
  | _, .nil => True
  | parent, .node left root right =>
      links root = ⟨left.root?, right.root?, parent⟩ ∧
        Realises links (some root) left ∧ Realises links (some root) right

/-- The links around the hole are the ones the context prescribes when the
hole is filled by the node `hole` points to. -/
def Context.Realises (links : P → Links P) : Context P → Option P → Prop
  | .top, _ => True
  | .left outer parent sibling, hole =>
      links parent = ⟨hole, sibling.root?, outer.parent?⟩ ∧
        LinkedTree.Realises links (some parent) sibling ∧
          outer.Realises links (some parent)
  | .right outer sibling parent, hole =>
      links parent = ⟨sibling.root?, hole, outer.parent?⟩ ∧
        LinkedTree.Realises links (some parent) sibling ∧
          outer.Realises links (some parent)

/-- The store is exactly the tree of the given shape. -/
structure Store.Holds (store : Store P) (shape : Shape P) : Prop where
  root : store.root = shape.root?
  links : Realises store.links none shape
  nodup : shape.inorder.Nodup

theorem Realises.congr {links links' : P → Links P} {parent : Option P}
    {shape : Shape P} (hrealises : Realises links parent shape)
    (hagree : ∀ node ∈ shape.inorder, links' node = links node) :
    Realises links' parent shape := by
  induction shape generalizing parent with
  | nil => trivial
  | node left root right ihLeft ihRight =>
      obtain ⟨hroot, hleft, hright⟩ := hrealises
      refine ⟨?_, ihLeft hleft ?_, ihRight hright ?_⟩
      · rw [hagree root (by simp), hroot]
      · intro node hnode
        exact hagree node (by simp [hnode])
      · intro node hnode
        exact hagree node (by simp [hnode])

/-- A subtree can be hung below another parent by changing the parent link of
its root only. -/
theorem Realises.reparent {links links' : P → Links P}
    {parent target : Option P} {shape : Shape P}
    (hrealises : Realises links parent shape) (hnodup : shape.inorder.Nodup)
    (hroot : ∀ node, shape.root? = some node →
      links' node = { links node with parent := target })
    (hrest : ∀ node ∈ shape.inorder, shape.root? ≠ some node →
      links' node = links node) :
    Realises links' target shape := by
  cases shape with
  | nil => trivial
  | node left root right =>
      obtain ⟨hlinks, hleft, hright⟩ := hrealises
      simp only [Shape.inorder_node, List.nodup_append', List.nodup_cons] at hnodup
      obtain ⟨-, ⟨hrootRight, -⟩, hdisjoint⟩ := hnodup
      refine ⟨by rw [hroot root rfl, hlinks], hleft.congr ?_, hright.congr ?_⟩
      · intro node hnode
        refine hrest node (by simp [hnode]) ?_
        simp only [Shape.root?_node, ne_eq, Option.some.injEq]
        rintro rfl
        exact hdisjoint hnode (by simp)
      · intro node hnode
        refine hrest node (by simp [hnode]) ?_
        simp only [Shape.root?_node, ne_eq, Option.some.injEq]
        rintro rfl
        exact hrootRight hnode

theorem Context.Realises.congr {links links' : P → Links P}
    {context : Context P} {hole : Option P}
    (hrealises : context.Realises links hole)
    (hagree : ∀ node ∈ context.nodes, links' node = links node) :
    context.Realises links' hole := by
  induction context generalizing hole with
  | top => trivial
  | left outer parent sibling ih =>
      obtain ⟨hparent, hsibling, houter⟩ := hrealises
      refine ⟨?_, hsibling.congr ?_, ih houter ?_⟩
      · rw [hagree parent (by simp [nodes, after]), hparent]
      · intro node hnode
        exact hagree node (by simp [nodes, after, hnode])
      · intro node hnode
        apply hagree node
        simp only [nodes, before, after, List.mem_append, List.mem_cons] at hnode ⊢
        tauto
  | right outer sibling parent ih =>
      obtain ⟨hparent, hsibling, houter⟩ := hrealises
      refine ⟨?_, hsibling.congr ?_, ih houter ?_⟩
      · rw [hagree parent (by simp [nodes, before]), hparent]
      · intro node hnode
        exact hagree node (by simp [nodes, before, hnode])
      · intro node hnode
        apply hagree node
        simp only [nodes, before, after, List.mem_append] at hnode ⊢
        tauto

/-- Filling a hole is realised exactly when both parts are. -/
theorem realises_fill_iff {links : P → Links P} {context : Context P}
    {shape : Shape P} :
    Realises links none (context.fill shape) ↔
      context.Realises links shape.root? ∧
        Realises links context.parent? shape := by
  induction context generalizing shape with
  | top => simp [Context.fill, Context.Realises, Context.parent?]
  | left outer parent sibling ih =>
      simp only [Context.fill, ih, Realises, Context.Realises, Shape.root?_node,
        Context.parent?]
      tauto
  | right outer sibling parent ih =>
      simp only [Context.fill, ih, Realises, Context.Realises, Shape.root?_node,
        Context.parent?]
      tauto

/-- A store in which `old` fills the hole of the context, as far as the
context and the parent link of `old` are concerned. -/
structure Store.Fills (store : Store P) (around : Context P) (old : P) : Prop where
  root : store.root = around.rootWith (some old)
  context : around.Realises store.links (some old)
  parent : (store.links old).parent = around.parent?
  nodup : around.nodes.Nodup
  not_mem : old ∉ around.nodes

theorem Store.Holds.fills {store : Store P} {context : Context P}
    {left right : Shape P} {node : P}
    (hholds : store.Holds (context.fill (.node left node right))) :
    store.Fills context node := by
  obtain ⟨hroot, hlinks, hnodup⟩ := hholds
  obtain ⟨hcontext, hnode, -, -⟩ := realises_fill_iff.mp hlinks
  obtain ⟨hcontextNodup, -, hdisjoint⟩ := Context.nodup_inorder_fill.mp hnodup
  exact {
    root := by rw [hroot, Context.root?_fill, Shape.root?_node]
    context := hcontext
    parent := by rw [hnode]
    nodup := hcontextNodup
    not_mem := hdisjoint node (by simp) }

end Realisation

end Flurry.LinkedTree
