import Flurry.Core.TreeSurgery

/-!
# The event queue of `events.c`

Events are kept in a binary search tree whose links are stored in the events
themselves.  The definitions follow the C functions statement by statement on
a store of `Event` records.  A function that can stop at an assertion, or whose
loop can run past every existing event, returns `none` there.

The last section separates the link fields from the rest of an event: each
tree function is the corresponding operation of `Flurry.LinkedTree` on the
links and leaves every other field alone.
-/

namespace Flurry.Events

open LinkedTree

/-- Addresses of `Event` records; a nullable `Event*` is an `Option`. -/
abbrev EventPtr := ℕ

/-- Addresses of `Thread` records. -/
abbrev ThreadPtr := ℕ

/-- The two functions the kernel stores in `Event.callback`. -/
inductive EventCallback where
  | switchThread
  | threadWake
  deriving DecidableEq, Repr

/-- `struct Event`.  The default values are those `event_create` writes. -/
@[ext]
structure Event where
  owner : Option ThreadPtr := none
  time : ℕ := 0
  enqueued : Bool := false
  callback : Option EventCallback := none
  kind : String := "NONE"
  callbackArg : Option ThreadPtr := none
  left : Option EventPtr := none
  right : Option EventPtr := none
  parent : Option EventPtr := none
  deriving DecidableEq, Repr

/-- `event_root`, the events and how many of them `event_create` has made.
Event addresses are handed out in order, so `created` also bounds every walk
along distinct events. -/
@[ext]
structure EventQueue where
  eventRoot : Option EventPtr
  events : EventPtr → Event
  created : ℕ

namespace EventQueue

/-- Before the first `event_create`. -/
def empty : EventQueue where
  eventRoot := none
  events := fun _ => {}
  created := 0

def modify (queue : EventQueue) (event : EventPtr) (change : Event → Event) :
    EventQueue :=
  { queue with
    events := Function.update queue.events event (change (queue.events event)) }

@[simp]
theorem events_modify_self (queue : EventQueue) (event : EventPtr)
    (change : Event → Event) :
    (queue.modify event change).events event = change (queue.events event) := by
  simp [modify]

theorem events_modify_of_ne {queue : EventQueue} {event other : EventPtr}
    {change : Event → Event} (hne : other ≠ event) :
    (queue.modify event change).events other = queue.events other := by
  simp [modify, Function.update_of_ne hne]

def setRoot (queue : EventQueue) (target : Option EventPtr) : EventQueue :=
  { queue with eventRoot := target }

def setLeft (queue : EventQueue) (event : EventPtr) (target : Option EventPtr) :
    EventQueue :=
  queue.modify event fun fields => { fields with left := target }

def setRight (queue : EventQueue) (event : EventPtr)
    (target : Option EventPtr) : EventQueue :=
  queue.modify event fun fields => { fields with right := target }

def setParent (queue : EventQueue) (event : EventPtr)
    (target : Option EventPtr) : EventQueue :=
  queue.modify event fun fields => { fields with parent := target }

/-- `if (child) child->parent = target`. -/
def setParentOf (queue : EventQueue) (child : Option EventPtr)
    (target : Option EventPtr) : EventQueue :=
  match child with
  | none => queue
  | some child => queue.setParent child target

end EventQueue

/-- A fresh event with the default fields. -/
def eventCreate (queue : EventQueue) : EventQueue × EventPtr :=
  ({ queue with
      events := Function.update queue.events queue.created {}
      created := queue.created + 1 }, queue.created)

/-- The loop of `event_bst_insert`: the last event passed on the way down. -/
def eventBstInsertLoop (queue : EventQueue) (node : EventPtr) :
    ℕ → Option EventPtr → Option EventPtr → Option (Option EventPtr)
  | _, none, parent => some parent
  | 0, some _, _ => none
  | fuel + 1, some current, _ =>
      eventBstInsertLoop queue node fuel
        (if (queue.events node).time < (queue.events current).time then
          (queue.events current).left
        else (queue.events current).right) (some current)

def eventBstInsert (queue : EventQueue) (node : EventPtr) : Option EventQueue :=
  match queue.eventRoot with
  | none => some (queue.setRoot (some node))
  | some root => do
      let parent ← eventBstInsertLoop queue node queue.created (some root) none
      parent.map fun parent =>
        let queue := queue.setParent node (some parent)
        if (queue.events node).time < (queue.events parent).time then
          queue.setLeft parent (some node)
        else queue.setRight parent (some node)

def bstTransplant (queue : EventQueue) (u : EventPtr) (v : Option EventPtr) :
    EventQueue :=
  let queue :=
    match (queue.events u).parent with
    | none => queue.setRoot v
    | some parent =>
        if (queue.events parent).left = some u then queue.setLeft parent v
        else queue.setRight parent v
  queue.setParentOf v (queue.events u).parent

/-- The loop of `bst_minimum`. -/
def bstMinimumLoop (queue : EventQueue) : ℕ → EventPtr → Option EventPtr
  | 0, _ => none
  | fuel + 1, node =>
      match (queue.events node).left with
      | none => some node
      | some left => bstMinimumLoop queue fuel left

/-- `some none` is the C result `NULL`. -/
def bstMinimum (queue : EventQueue) (node : Option EventPtr) :
    Option (Option EventPtr) :=
  match node with
  | none => some none
  | some node => (bstMinimumLoop queue queue.created node).map some

/-- The body of the `if (y->parent != node)` of `bst_delete`. -/
def bstDeleteDetach (queue : EventQueue) (node y : EventPtr) : EventQueue :=
  let queue := bstTransplant queue y (queue.events y).right
  let queue := queue.setRight y (queue.events node).right
  queue.setParentOf (queue.events y).right (some y)

/-- The statements of `bst_delete` from `bst_transplant(node, y)` on. -/
def bstDeleteReplace (queue : EventQueue) (node y : EventPtr) : EventQueue :=
  let queue := bstTransplant queue node (some y)
  let queue := queue.setLeft y (queue.events node).left
  queue.setParentOf (queue.events y).left (some y)

def bstDelete (queue : EventQueue) (node : EventPtr) : Option EventQueue :=
  match (queue.events node).left, (queue.events node).right with
  | none, right => some (bstTransplant queue node right)
  | some left, none => some (bstTransplant queue node (some left))
  | some _, some right => do
      -- `bst_minimum` of a non-null pointer is never null
      let y ← bstMinimumLoop queue queue.created right
      if (queue.events y).parent ≠ some node then
        return bstDeleteReplace (bstDeleteDetach queue node y) node y
      else return bstDeleteReplace queue node y

/-- `left = right = parent = NULL`. -/
def clearLinks (queue : EventQueue) (event : EventPtr) : EventQueue :=
  queue.modify event fun fields =>
    { fields with left := none, right := none, parent := none }

def setEnqueued (queue : EventQueue) (event : EventPtr) (flag : Bool) :
    EventQueue :=
  queue.modify event fun fields => { fields with enqueued := flag }

def eventRemove (queue : EventQueue) (toRemove : Option EventPtr) :
    Option EventQueue :=
  match queue.eventRoot, toRemove with
  | none, _ => some queue
  | some _, none => some queue
  | some _, some toRemove => do
      let queue ← bstDelete queue toRemove
      return setEnqueued (clearLinks queue toRemove) toRemove false

def eventEnqueue (queue : EventQueue) (toInsert : Option EventPtr) :
    Option EventQueue := do
  -- kassert: "Event to be inserted is null"
  let toInsert ← toInsert
  let queue ←
    if (queue.events toInsert).enqueued then eventRemove queue (some toInsert)
    else some queue
  let queue ← eventBstInsert (clearLinks queue toInsert) toInsert
  return setEnqueued queue toInsert true

def eventPeekNext (queue : EventQueue) : Option (Option EventPtr) :=
  bstMinimum queue queue.eventRoot

def eventDequeue (queue : EventQueue) : Option (EventQueue × EventPtr) := do
  -- kassert: "event_dequeue(): event_queue is empty"
  let root ← queue.eventRoot
  let minEvent ← bstMinimumLoop queue queue.created root
  let queue ← bstDelete queue minEvent
  return (queue, minEvent)

/-! ## Links and other fields -/

namespace EventQueue

/-- The links of all events. -/
def store (queue : EventQueue) : Store EventPtr where
  root := queue.eventRoot
  links event :=
    ⟨(queue.events event).left, (queue.events event).right,
      (queue.events event).parent⟩

/-- The same events with other links. -/
def withStore (queue : EventQueue) (store : Store EventPtr) : EventQueue where
  eventRoot := store.root
  events event :=
    { queue.events event with
      left := (store.links event).left
      right := (store.links event).right
      parent := (store.links event).parent }
  created := queue.created

@[simp]
theorem root_store (queue : EventQueue) : queue.store.root = queue.eventRoot := rfl

@[simp]
theorem links_store (queue : EventQueue) (event : EventPtr) :
    queue.store.links event =
      ⟨(queue.events event).left, (queue.events event).right,
        (queue.events event).parent⟩ := rfl

@[simp]
theorem store_withStore (queue : EventQueue) (store : Store EventPtr) :
    (queue.withStore store).store = store := rfl

@[simp]
theorem withStore_withStore (queue : EventQueue) (first second : Store EventPtr) :
    (queue.withStore first).withStore second = queue.withStore second := rfl

@[simp]
theorem withStore_store (queue : EventQueue) :
    queue.withStore queue.store = queue := rfl

@[simp]
theorem created_withStore (queue : EventQueue) (store : Store EventPtr) :
    (queue.withStore store).created = queue.created := rfl

@[simp]
theorem time_withStore (queue : EventQueue) (store : Store EventPtr)
    (event : EventPtr) :
    ((queue.withStore store).events event).time = (queue.events event).time := rfl

theorem setLeft_eq (queue : EventQueue) (event : EventPtr)
    (target : Option EventPtr) :
    queue.setLeft event target =
      queue.withStore (queue.store.setLeft event target) := by
  ext1
  · rfl
  · funext other
    by_cases heq : other = event
    · subst heq
      simp [setLeft, modify, withStore, store, Store.setLeft]
    · simp [setLeft, modify, withStore, store, Store.setLeft,
        Function.update_of_ne heq]
  · rfl

theorem setRight_eq (queue : EventQueue) (event : EventPtr)
    (target : Option EventPtr) :
    queue.setRight event target =
      queue.withStore (queue.store.setRight event target) := by
  ext1
  · rfl
  · funext other
    by_cases heq : other = event
    · subst heq
      simp [setRight, modify, withStore, store, Store.setRight]
    · simp [setRight, modify, withStore, store, Store.setRight,
        Function.update_of_ne heq]
  · rfl

theorem setParent_eq (queue : EventQueue) (event : EventPtr)
    (target : Option EventPtr) :
    queue.setParent event target =
      queue.withStore (queue.store.setParent event target) := by
  ext1
  · rfl
  · funext other
    by_cases heq : other = event
    · subst heq
      simp [setParent, modify, withStore, store, Store.setParent]
    · simp [setParent, modify, withStore, store, Store.setParent,
        Function.update_of_ne heq]
  · rfl

theorem setParentOf_eq (queue : EventQueue) (child target : Option EventPtr) :
    queue.setParentOf child target =
      queue.withStore (queue.store.setParent? child target) := by
  cases child with
  | none => rfl
  | some child => exact setParent_eq queue child target

end EventQueue

open EventQueue

theorem bstTransplant_eq (queue : EventQueue) (u : EventPtr)
    (v : Option EventPtr) :
    bstTransplant queue u v = queue.withStore (queue.store.transplant u v) := by
  simp only [bstTransplant, Store.transplant, Store.relink, links_store,
    setParentOf_eq]
  cases (queue.events u).parent with
  | none => rfl
  | some parent =>
      by_cases hleft : (queue.events parent).left = some u
      · simp only [hleft, if_true, setLeft_eq]
        rfl
      · simp only [hleft, if_false, setRight_eq]
        rfl

theorem bstMinimumLoop_eq (queue : EventQueue) (fuel : ℕ) (node : EventPtr) :
    bstMinimumLoop queue fuel node = queue.store.minimum fuel node := by
  induction fuel generalizing node with
  | zero => rfl
  | succ fuel ih =>
      simp only [bstMinimumLoop, Store.minimum, links_store]
      cases (queue.events node).left with
      | none => rfl
      | some left => exact ih left

theorem bstDeleteDetach_eq (queue : EventQueue) (node y : EventPtr) :
    bstDeleteDetach queue node y =
      queue.withStore (queue.store.liftSuccessor node y) := by
  simp only [bstDeleteDetach, bstTransplant_eq, setRight_eq, setParentOf_eq]
  rfl

theorem bstDeleteReplace_eq (queue : EventQueue) (node y : EventPtr) :
    bstDeleteReplace queue node y =
      queue.withStore (queue.store.replaceBy node y) := by
  simp only [bstDeleteReplace, bstTransplant_eq, setLeft_eq, setParentOf_eq]
  rfl

theorem bstDelete_eq (queue : EventQueue) (node : EventPtr) :
    bstDelete queue node =
      (queue.store.delete queue.created node).map queue.withStore := by
  simp only [bstDelete, Store.delete, links_store, bstMinimumLoop_eq,
    bstDeleteReplace_eq, bstDeleteDetach_eq, bstTransplant_eq]
  cases (queue.events node).left with
  | none => rfl
  | some left =>
      cases (queue.events node).right with
      | none => rfl
      | some right =>
          dsimp only
          cases queue.store.minimum queue.created right with
          | none => rfl
          | some y =>
              by_cases hparent : (queue.events y).parent = some node <;>
                simp [hparent]

theorem eventBstInsertLoop_eq (queue : EventQueue) (node : EventPtr) (fuel : ℕ)
    (current parent : Option EventPtr) :
    eventBstInsertLoop queue node fuel current parent =
      queue.store.descend
        (fun other => decide ((queue.events node).time < (queue.events other).time))
        fuel current parent := by
  induction fuel generalizing current parent with
  | zero => cases current <;> rfl
  | succ fuel ih =>
      cases current with
      | none => rfl
      | some current => simp [eventBstInsertLoop, Store.descend, ih]

theorem eventBstInsert_eq (queue : EventQueue) (node : EventPtr) :
    eventBstInsert queue node =
      (queue.store.insert queue.created
        (fun other => decide ((queue.events node).time < (queue.events other).time))
        node).map queue.withStore := by
  simp only [eventBstInsert, Store.insert, root_store, eventBstInsertLoop_eq]
  cases queue.eventRoot with
  | none => rfl
  | some root =>
      dsimp only
      cases queue.store.descend _ queue.created (some root) none with
      | none => rfl
      | some parent =>
          cases parent with
          | none => rfl
          | some parent =>
              simp only [Option.bind_eq_bind, Option.bind_some, Option.map_some,
                setParent_eq, setLeft_eq, setRight_eq, Store.attach,
                time_withStore, store_withStore, withStore_withStore]
              by_cases hlt : (queue.events node).time < (queue.events parent).time <;>
                simp [hlt]

end Flurry.Events
