import Flurry.Core.SearchTree
import Flurry.Multitasking.Events

/-!
# The event queue is a stable time-ordered list

`Linked` says that the pointers under `event_root` form a finite tree holding
exactly the enqueued events.  It does not mention times, because the scheduler
overwrites the time of an event that is still in the tree before it enqueues
it again.  Removal is purely structural, so the overwritten key never
matters; insertion finds the remaining events in search order.
-/

namespace Flurry.Events

open LinkedTree

/-- The fields of an event that the queue never touches. -/
def Event.payload (fields : Event) : Event :=
  { fields with enqueued := false, left := none, right := none, parent := none }

/-- The times of all events. -/
def EventQueue.time (queue : EventQueue) (event : EventPtr) : ℕ :=
  (queue.events event).time

/-- The events under `event_root` form a tree of the given shape, and they are
the ones whose `enqueued` flag is set. -/
structure EventQueue.Linked (queue : EventQueue) (shape : Shape EventPtr) :
    Prop where
  holds : queue.store.Holds shape
  enqueued : ∀ event, (queue.events event).enqueued = true ↔ event ∈ shape.inorder
  created : ∀ event ∈ shape.inorder, event < queue.created

/-- Two queues over the same events, up to links and flags. -/
structure EventQueue.SamePayload (queue after : EventQueue) : Prop where
  payload : ∀ event, (after.events event).payload = (queue.events event).payload
  created : after.created = queue.created

namespace EventQueue

theorem SamePayload.trans {first second third : EventQueue}
    (hleft : first.SamePayload second) (hright : second.SamePayload third) :
    first.SamePayload third where
  payload event := (hright.payload event).trans (hleft.payload event)
  created := hright.created.trans hleft.created

theorem SamePayload.time {queue after : EventQueue}
    (hsame : queue.SamePayload after) : after.time = queue.time := by
  funext event
  change (after.events event).payload.time = (queue.events event).payload.time
  rw [hsame.payload]

theorem samePayload_withStore (queue : EventQueue) (store : Store EventPtr) :
    queue.SamePayload (queue.withStore store) :=
  ⟨fun _ => rfl, rfl⟩

theorem samePayload_modify {queue : EventQueue} {event : EventPtr}
    {change : Event → Event}
    (hchange : ∀ fields : Event, (change fields).payload = fields.payload) :
    queue.SamePayload (queue.modify event change) := by
  refine ⟨fun other => ?_, rfl⟩
  by_cases heq : other = event
  · subst heq
    rw [events_modify_self, hchange]
  · rw [events_modify_of_ne heq]

theorem samePayload_clearLinks (queue : EventQueue) (event : EventPtr) :
    queue.SamePayload (clearLinks queue event) :=
  samePayload_modify fun _ => rfl

theorem samePayload_setEnqueued (queue : EventQueue) (event : EventPtr)
    (flag : Bool) : queue.SamePayload (setEnqueued queue event flag) :=
  samePayload_modify fun _ => rfl

theorem Linked.length_le {queue : EventQueue} {shape : Shape EventPtr}
    (hlinked : queue.Linked shape) : shape.inorder.length ≤ queue.created := by
  have hsubset : shape.inorder ⊆ List.range queue.created := fun event hevent =>
    List.mem_range.mpr (hlinked.created event hevent)
  simpa using (hlinked.holds.nodup.subperm hsubset).length_le

end EventQueue

open EventQueue

theorem eventPeekNext_eq {queue : EventQueue} {shape : Shape EventPtr}
    (hlinked : queue.Linked shape) :
    eventPeekNext queue = some shape.inorder.head? := by
  have hroot := hlinked.holds.root
  have hlength := hlinked.length_le
  cases shape with
  | nil =>
      simp only [root_store, Shape.root?_nil] at hroot
      simp [eventPeekNext, bstMinimum, hroot]
  | node left root right =>
      simp only [root_store, Shape.root?_node] at hroot
      simp only [Shape.inorder_node, List.length_append, List.length_cons] at hlength
      have hminimum := Store.minimum_eq_head? hlinked.holds.links
        (show left.inorder.length < queue.created by omega)
      rw [eventPeekNext, hroot, bstMinimum, bstMinimumLoop_eq, hminimum]
      cases left.inorder <;> simp

/-- Changing an event outside the tree keeps the tree. -/
private theorem holds_modify {queue : EventQueue} {shape : Shape EventPtr}
    {event : EventPtr} {change : Event → Event}
    (hholds : queue.store.Holds shape) (hevent : event ∉ shape.inorder) :
    (queue.modify event change).store.Holds shape := by
  refine ⟨hholds.root, hholds.links.congr fun other hother => ?_, hholds.nodup⟩
  have hne : other ≠ event := ne_of_mem_of_not_mem hother hevent
  simp [events_modify_of_ne hne]

/-- Changing other fields of an event keeps the links. -/
theorem store_modify {queue : EventQueue} {event : EventPtr} {change : Event → Event}
    (hleft : ∀ fields : Event, (change fields).left = fields.left)
    (hright : ∀ fields : Event, (change fields).right = fields.right)
    (hparent : ∀ fields : Event, (change fields).parent = fields.parent) :
    (queue.modify event change).store = queue.store := by
  have hlinks : (queue.modify event change).store.links = queue.store.links := by
    funext other
    by_cases heq : other = event
    · subst heq
      simp [hleft, hright, hparent]
    · simp [events_modify_of_ne heq]
  have hroot : (queue.modify event change).store.root = queue.store.root := rfl
  cases hbefore : queue.store
  cases hafter : (queue.modify event change).store
  simp_all

theorem store_setEnqueued (queue : EventQueue) (event : EventPtr) (flag : Bool) :
    (setEnqueued queue event flag).store = queue.store :=
  store_modify (fun _ => rfl) (fun _ => rfl) fun _ => rfl

/-- `bst_delete` on an event of the tree only changes links of the tree. -/
theorem bstDelete_spec {queue : EventQueue} {shape : Shape EventPtr} {event : EventPtr}
    (hlinked : queue.Linked shape) (hevent : event ∈ shape.inorder) :
    ∃ (context : Context EventPtr) (left right : Shape EventPtr)
      (deleted : Store EventPtr),
      shape = context.fill (.node left event right) ∧
        bstDelete queue event = some (queue.withStore deleted) ∧
          deleted.Holds (context.fill (left.join right)) ∧
            ∀ other ∉ shape.inorder, deleted.links other = queue.store.links other := by
  obtain ⟨context, left, right, rfl⟩ := Context.exists_fill_of_mem hevent
  have hlength := hlinked.length_le
  have hfuel : right.inorder.length ≤ queue.created := by
    simp only [Context.inorder_fill, Shape.inorder_node, List.length_append,
      List.length_cons] at hlength
    omega
  obtain ⟨deleted, hdelete, hholds, hframe⟩ :=
    Store.delete_holds hlinked.holds hfuel
  refine ⟨context, left, right, deleted, rfl, ?_, hholds, hframe⟩
  rw [bstDelete_eq, hdelete, Option.map_some]

theorem eventRemove_of_bstDelete {queue deleted : EventQueue} {shape : Shape EventPtr}
    {event : EventPtr} (hlinked : queue.Linked shape) (hevent : event ∈ shape.inorder)
    (hdelete : bstDelete queue event = some deleted) :
    eventRemove queue (some event) =
      some (setEnqueued (clearLinks deleted event) event false) := by
  obtain ⟨root, hroot⟩ := Shape.exists_root?_of_mem hevent
  rw [← hlinked.holds.root, root_store] at hroot
  simp [eventRemove, hroot, hdelete]

/-- The event that was removed is cleared, the others are as `bst_delete` left them. -/
theorem events_cleared_of_ne (queue : EventQueue) {event other : EventPtr}
    (hother : other ≠ event) :
    (setEnqueued (clearLinks queue event) event false).events other =
      queue.events other := by
  rw [setEnqueued, events_modify_of_ne hother, clearLinks, events_modify_of_ne hother]

/-- Removing an enqueued event takes it out of the tree and changes nothing
else, whatever the times of the events are. -/
theorem eventRemove_spec {queue : EventQueue} {shape : Shape EventPtr}
    {event : EventPtr} (hlinked : queue.Linked shape)
    (hevent : event ∈ shape.inorder) :
    ∃ (after : EventQueue) (rest : Shape EventPtr),
      eventRemove queue (some event) = some after ∧ after.Linked rest ∧
        rest.inorder = shape.inorder.erase event ∧
          (∀ key : EventPtr → ℕ, shape.Ordered key → rest.Ordered key) ∧
            queue.SamePayload after := by
  obtain ⟨context, left, right, deleted, rfl, hdelete, hholds, -⟩ :=
    bstDelete_spec hlinked hevent
  have hnodup := hlinked.holds.nodup
  have herase := Context.inorder_fill_join hnodup
  have hgone : event ∉ (context.fill (left.join right)).inorder := by
    rw [herase]
    exact hnodup.not_mem_erase
  refine ⟨setEnqueued (clearLinks (queue.withStore deleted) event) event false,
    context.fill (left.join right), ?_, ⟨?_, ?_, ?_⟩, herase, ?_, ?_⟩
  · exact eventRemove_of_bstDelete hlinked hevent hdelete
  · rw [store_setEnqueued]
    exact holds_modify hholds hgone
  · intro other
    by_cases heq : other = event
    · subst heq
      simp [setEnqueued, hgone]
    · rw [events_cleared_of_ne _ heq, herase, List.mem_erase_of_ne heq,
        ← hlinked.enqueued]
      rfl
  · intro other hother
    rw [herase] at hother
    exact hlinked.created other (List.mem_of_mem_erase hother)
  · intro key hordered
    refine Context.ordered_fill_of_subset hordered
      (Context.ordered_of_fill hordered).join fun node hnode => ?_
    rw [Shape.inorder_join] at hnode
    simp only [Shape.inorder_node, List.mem_append, List.mem_cons] at hnode ⊢
    tauto
  · exact ((samePayload_withStore queue deleted).trans
      (samePayload_clearLinks _ event)).trans (samePayload_setEnqueued _ event false)

/-- `event_bst_insert` on an event outside the tree only changes its links and those of
the tree. -/
theorem eventBstInsert_spec {queue : EventQueue} {shape : Shape EventPtr}
    {event : EventPtr} (hlinked : queue.Linked shape) (hevent : event ∉ shape.inorder) :
    ∃ inserted : Store EventPtr,
      eventBstInsert (clearLinks queue event) event =
          some ((clearLinks queue event).withStore inserted) ∧
        inserted.Holds (shape.insert
          (fun other => decide (queue.time event < queue.time other)) event) ∧
          ∀ other ∉ shape.inorder, other ≠ event →
            inserted.links other = queue.store.links other := by
  have hholds : (clearLinks queue event).store.Holds shape :=
    holds_modify hlinked.holds hevent
  have hlinks : (clearLinks queue event).store.links event = ⟨none, none, none⟩ := by
    simp [clearLinks]
  have hlength : shape.inorder.length ≤ (clearLinks queue event).created :=
    hlinked.length_le
  obtain ⟨inserted, hinsert, hafter, hframe⟩ := Store.insert_holds
    (fun other => decide (queue.time event < queue.time other))
    hholds hevent hlinks hlength
  refine ⟨inserted, ?_, hafter, ?_⟩
  · have hgo : ∀ other, ((clearLinks queue event).events other).time =
        queue.time other := fun other =>
      congrFun (samePayload_clearLinks queue event).time other
    simp [eventBstInsert_eq, hgo, hinsert]
  · intro other hother hne
    rw [hframe other hother hne, links_store, links_store, clearLinks,
      events_modify_of_ne hne]

/-- Putting an event that is not in the tree behind all events that are not
later. -/
private theorem insert_spec {queue : EventQueue} {shape : Shape EventPtr}
    {event : EventPtr} (hlinked : queue.Linked shape)
    (hordered : shape.Ordered queue.time) (hevent : event ∉ shape.inorder)
    (hcreated : event < queue.created) :
    ∃ (after : EventQueue) (larger : Shape EventPtr),
      (eventBstInsert (clearLinks queue event) event).map
          (setEnqueued · event true) = some after ∧
        after.Linked larger ∧ larger.Ordered queue.time ∧
          larger.inorder = insertByKey queue.time event shape.inorder ∧
            queue.SamePayload after := by
  have hclear := samePayload_clearLinks queue event
  obtain ⟨inserted, hinsert, hafter, -⟩ := eventBstInsert_spec hlinked hevent
  refine ⟨setEnqueued ((clearLinks queue event).withStore inserted) event true,
    shape.insert (fun other => decide (queue.time event < queue.time other)) event,
    ?_, ⟨?_, ?_, ?_⟩, hordered.insert, Shape.inorder_insert hordered, ?_⟩
  · rw [hinsert, Option.map_some]
  · rw [store_setEnqueued]
    exact hafter
  · intro other
    rw [Shape.mem_inorder_insert]
    by_cases heq : other = event
    · subst heq
      simp [setEnqueued]
    · have hother : ((setEnqueued ((clearLinks queue event).withStore inserted)
          event true).events other).enqueued = (queue.events other).enqueued := by
        rw [setEnqueued, events_modify_of_ne heq]
        change ((clearLinks queue event).events other).enqueued = _
        rw [clearLinks, events_modify_of_ne heq]
      rw [hother, hlinked.enqueued]
      simp [heq]
  · intro other hother
    rcases Shape.mem_inorder_insert.mp hother with rfl | hmem
    · exact hcreated
    · exact hlinked.created other hmem
  · exact (hclear.trans (samePayload_withStore _ inserted)).trans
      (samePayload_setEnqueued _ event true)

/-- Enqueueing an event removes it first when it is queued, then puts it behind
all events that are not later.  Its own time may have been overwritten while it
was queued: `key` records the times the tree was built with. -/
theorem eventEnqueue_spec {queue : EventQueue} {shape : Shape EventPtr}
    {event : EventPtr} {key : EventPtr → ℕ} (hlinked : queue.Linked shape)
    (hordered : shape.Ordered key)
    (hkey : ∀ other ∈ shape.inorder, other ≠ event → key other = queue.time other)
    (hcreated : event < queue.created) :
    ∃ (after : EventQueue) (larger : Shape EventPtr),
      eventEnqueue queue (some event) = some after ∧ after.Linked larger ∧
        larger.Ordered after.time ∧
          larger.inorder =
            insertByKey queue.time event (shape.inorder.erase event) ∧
              queue.SamePayload after := by
  by_cases hqueued : event ∈ shape.inorder
  · obtain ⟨removed, rest, hremove, hrest, herase, htransfer, hsame⟩ :=
      eventRemove_spec hlinked hqueued
    have hgone : event ∉ rest.inorder := by
      rw [herase]
      exact hlinked.holds.nodup.not_mem_erase
    have hrestOrdered : rest.Ordered removed.time := by
      refine (htransfer key hordered).congr fun other hother => ?_
      rw [hsame.time]
      refine (hkey other ?_ (ne_of_mem_of_not_mem hother hgone)).symm
      rw [herase] at hother
      exact List.mem_of_mem_erase hother
    obtain ⟨after, larger, hinsert, hafter, hlarger, hinorder, hinserted⟩ :=
      insert_spec hrest hrestOrdered hgone (by rw [hsame.created]; exact hcreated)
    refine ⟨after, larger, ?_, hafter, ?_, ?_, hsame.trans hinserted⟩
    · have hflag := (hlinked.enqueued event).mpr hqueued
      simpa [eventEnqueue, hflag, hremove, Option.map_eq_some_iff,
        Option.bind_eq_some_iff] using hinsert
    · rwa [hinserted.time]
    · rw [hinorder, herase, hsame.time]
  · obtain ⟨after, larger, hinsert, hafter, hlarger, hinorder, hinserted⟩ :=
      insert_spec hlinked (hordered.congr fun other hother =>
        (hkey other hother (ne_of_mem_of_not_mem hother hqueued)).symm) hqueued hcreated
    refine ⟨after, larger, ?_, hafter, ?_, ?_, hinserted⟩
    · have hflag : (queue.events event).enqueued = false := by
        simpa using mt (hlinked.enqueued event).mp hqueued
      simpa [eventEnqueue, hflag, Option.map_eq_some_iff,
        Option.bind_eq_some_iff] using hinsert
    · rwa [hinserted.time]
    · rw [hinorder, List.erase_of_not_mem hqueued]

/-- Fields other than links and flag may be overwritten at any moment. -/
theorem EventQueue.Linked.modify {queue : EventQueue} {shape : Shape EventPtr}
    {event : EventPtr} {change : Event → Event} (hlinked : queue.Linked shape)
    (hchange : ∀ fields : Event, (change fields).left = fields.left ∧
      (change fields).right = fields.right ∧
        (change fields).parent = fields.parent ∧
          (change fields).enqueued = fields.enqueued) :
    (queue.modify event change).Linked shape := by
  have hfields : ∀ other,
      ((queue.modify event change).events other).left = (queue.events other).left ∧
        ((queue.modify event change).events other).right =
          (queue.events other).right ∧
        ((queue.modify event change).events other).parent =
          (queue.events other).parent ∧
        ((queue.modify event change).events other).enqueued =
          (queue.events other).enqueued := by
    intro other
    by_cases heq : other = event
    · subst heq
      rw [events_modify_self]
      exact hchange _
    · rw [events_modify_of_ne heq]
      simp
  constructor
  · constructor
    · exact hlinked.holds.root
    · apply hlinked.holds.links.congr
      intro other _
      simp [hfields other]
    · exact hlinked.holds.nodup
  · intro other
    rw [(hfields other).2.2.2]
    exact hlinked.enqueued other
  · exact hlinked.created

/-! ## Calls of the queue interface -/

/-- What the queue is for: events with their times, earliest first. -/
abbrev Schedule := List (EventPtr × ℕ)

namespace Schedule

def remove (schedule : Schedule) (event : EventPtr) : Schedule :=
  schedule.filter fun entry => entry.1 ≠ event

/-- Delete the event if it is there and insert it behind every event whose time
is less than or equal to its own. -/
def enqueue (schedule : Schedule) (event : EventPtr) (time : ℕ) : Schedule :=
  insertByKey Prod.snd (event, time) (schedule.remove event)

def next (schedule : Schedule) : Option EventPtr :=
  schedule.head?.map Prod.fst

end Schedule

/-- One use of the queue.  The caller of `event_enqueue` stores the time in the
event first, whether or not the event is still in the tree. -/
inductive QueueCall where
  | enqueue (event : EventPtr) (time : ℕ)
  | remove (event : EventPtr)
  | peekNext
  deriving DecidableEq, Repr

namespace QueueCall

def run (queue : EventQueue) : QueueCall → Option EventQueue
  | enqueue event time =>
      eventEnqueue (queue.modify event fun fields => { fields with time := time })
        (some event)
  | remove event => eventRemove queue (some event)
  | peekNext => (eventPeekNext queue).map fun _ => queue

def apply (schedule : Schedule) : QueueCall → Schedule
  | enqueue event time => schedule.enqueue event time
  | remove event => schedule.remove event
  | peekNext => schedule

/-- Only existing events are enqueued, and only enqueued ones are removed. -/
def Allowed (count : ℕ) (schedule : Schedule) : QueueCall → Prop
  | enqueue event _ => event < count
  | remove event => event ∈ schedule.map Prod.fst
  | peekNext => True

end QueueCall

def runCalls (queue : EventQueue) (calls : List QueueCall) : Option EventQueue :=
  calls.foldlM QueueCall.run queue

def applyCalls (schedule : Schedule) (calls : List QueueCall) : Schedule :=
  calls.foldl QueueCall.apply schedule

def CallsAllowed (count : ℕ) : Schedule → List QueueCall → Prop
  | _, [] => True
  | schedule, call :: calls =>
      call.Allowed count schedule ∧
        CallsAllowed count (call.apply schedule) calls

/-- `count` events made by `event_create`, none of them enqueued. -/
def eventsCreated (count : ℕ) : EventQueue :=
  (fun queue => (eventCreate queue).1)^[count] EventQueue.empty

/-- The tree under `event_root` is ordered by time and reads, in order, as the
given schedule. -/
structure EventQueue.Represents (queue : EventQueue) (shape : Shape EventPtr)
    (schedule : Schedule) : Prop where
  linked : queue.Linked shape
  ordered : shape.Ordered queue.time
  entries : shape.inorder.map (fun event => (event, queue.time event)) = schedule

theorem eventsCreated_eq (count : ℕ) :
    eventsCreated count = { EventQueue.empty with created := count } := by
  induction count with
  | zero => rfl
  | succ count ih =>
      rw [eventsCreated, Function.iterate_succ_apply']
      change (eventCreate (eventsCreated count)).1 = _
      rw [ih]
      ext1
      · rfl
      · exact Function.update_eq_self count _
      · rfl

theorem represents_eventsCreated (count : ℕ) :
    (eventsCreated count).Represents .nil [] := by
  rw [eventsCreated_eq]
  constructor
  · constructor
    · exact ⟨rfl, trivial, List.nodup_nil⟩
    · simp [EventQueue.empty]
    · simp
  · trivial
  · rfl

theorem map_erase_eq_remove {queue retimed : EventQueue}
    {nodes : List EventPtr} {event : EventPtr} (hnodup : nodes.Nodup)
    (htime : ∀ other, other ≠ event → retimed.time other = queue.time other) :
    (nodes.erase event).map (fun other => (other, retimed.time other)) =
      Schedule.remove (nodes.map fun other => (other, queue.time other)) event := by
  rw [hnodup.erase_eq_filter, Schedule.remove, List.filter_map]
  have hfilter : ((fun entry : EventPtr × ℕ => decide (entry.1 ≠ event)) ∘
      fun other => (other, queue.time other)) = fun other => other != event := by
    funext other
    by_cases heq : other = event <;> simp [heq]
  rw [hfilter]
  apply List.map_congr_left
  intro other hother
  have hne : other ≠ event := by simpa using (List.mem_filter.mp hother).2
  rw [htime other hne]

theorem map_insertByKey (queue : EventQueue) (event : EventPtr)
    (nodes : List EventPtr) :
    (insertByKey queue.time event nodes).map
        (fun other => (other, queue.time other)) =
      insertByKey Prod.snd (event, queue.time event)
        (nodes.map fun other => (other, queue.time other)) := by
  apply List.map_orderedInsert
  · intro other _
    rfl
  · intro other _
    rfl

/-- One call returns and does to the schedule what it should. -/
theorem QueueCall.run_represents {queue : EventQueue} {shape : Shape EventPtr}
    {schedule : Schedule} (call : QueueCall)
    (hrepresents : queue.Represents shape schedule)
    (hallowed : call.Allowed queue.created schedule) :
    ∃ (after : EventQueue) (shape' : Shape EventPtr),
      call.run queue = some after ∧
        after.Represents shape' (call.apply schedule) ∧
          after.created = queue.created := by
  obtain ⟨hlinked, hordered, hentries⟩ := hrepresents
  cases call with
  | enqueue event time =>
      set retimed := queue.modify event fun fields => { fields with time := time }
        with hretimed
      have hretimedLinked : retimed.Linked shape := hlinked.modify (by simp)
      have htime : ∀ other, other ≠ event → retimed.time other = queue.time other := by
        intro other hne
        simp [hretimed, EventQueue.time, events_modify_of_ne hne]
      have hself : retimed.time event = time := by
        simp [hretimed, EventQueue.time]
      obtain ⟨after, larger, henqueue, hafter, hlarger, hinorder, hsame⟩ :=
        eventEnqueue_spec hretimedLinked hordered
          (fun other _ hne => (htime other hne).symm) hallowed
      refine ⟨after, larger, henqueue, ⟨hafter, hlarger, ?_⟩, hsame.created⟩
      rw [hsame.time, hinorder, map_insertByKey, hself,
        map_erase_eq_remove hlinked.holds.nodup htime, hentries]
      rfl
  | remove event =>
      have hmem : event ∈ shape.inorder := by
        rw [← hentries] at hallowed
        simpa [QueueCall.Allowed] using hallowed
      obtain ⟨after, rest, hremove, hafter, herase, htransfer, hsame⟩ :=
        eventRemove_spec hlinked hmem
      refine ⟨after, rest, hremove, ⟨hafter, ?_, ?_⟩, hsame.created⟩
      · rw [hsame.time]
        exact htransfer _ hordered
      · rw [hsame.time, herase,
          map_erase_eq_remove hlinked.holds.nodup (fun _ _ => rfl), hentries]
        rfl
  | peekNext =>
      refine ⟨queue, shape, ?_, ⟨hlinked, hordered, hentries⟩, rfl⟩
      simp [QueueCall.run, eventPeekNext_eq hlinked]

/-- Every allowed sequence of calls returns and keeps the queue equal to its
schedule. -/
theorem runCalls_represents {queue : EventQueue} {shape : Shape EventPtr}
    {schedule : Schedule} (calls : List QueueCall)
    (hrepresents : queue.Represents shape schedule)
    (hallowed : CallsAllowed queue.created schedule calls) :
    ∃ (after : EventQueue) (shape' : Shape EventPtr),
      runCalls queue calls = some after ∧
        after.Represents shape' (applyCalls schedule calls) := by
  induction calls generalizing queue shape schedule with
  | nil => exact ⟨queue, shape, rfl, hrepresents⟩
  | cons call calls ih =>
      obtain ⟨hcall, hcalls⟩ := hallowed
      obtain ⟨next, shape', hrun, hnext, hcreated⟩ :=
        call.run_represents hrepresents hcall
      rw [← hcreated] at hcalls
      obtain ⟨after, shape'', hrest, hafter⟩ := ih hnext hcalls
      refine ⟨after, shape'', ?_, hafter⟩
      simpa [runCalls, hrun] using hrest

/-- For any number of events and any calls on them, every call returns; the
pointers under `event_root` form a finite tree in search order that holds
exactly the enqueued events, each once; in order they are the stable
time-ordered list; and `event_peek_next` returns its head. -/
theorem eventQueue_refines_schedule (count : ℕ) (calls : List QueueCall)
    (hallowed : CallsAllowed count [] calls) :
    ∃ (queue : EventQueue) (shape : Shape EventPtr),
      runCalls (eventsCreated count) calls = some queue ∧
        queue.store.Holds shape ∧ shape.Ordered queue.time ∧
          (∀ event, (queue.events event).enqueued = true ↔
            event ∈ shape.inorder) ∧
          shape.inorder.map (fun event => (event, queue.time event)) =
            applyCalls [] calls ∧
          eventPeekNext queue = some (Schedule.next (applyCalls [] calls)) := by
  have hcreated : (eventsCreated count).created = count := by
    rw [eventsCreated_eq]
  rw [← hcreated] at hallowed
  obtain ⟨queue, shape, hrun, hlinked, hordered, hentries⟩ :=
    runCalls_represents calls (represents_eventsCreated count) hallowed
  refine ⟨queue, shape, hrun, hlinked.holds, hordered, hlinked.enqueued, hentries, ?_⟩
  rw [eventPeekNext_eq hlinked, ← hentries, Schedule.next]
  cases shape.inorder <;> rfl

/-- Three events with equal times come out in enqueue order, and moving the
first of them while it is enqueued puts it at the end. -/
theorem eventQueue_refines_schedule_equal_times :
    CallsAllowed 3 []
        [.enqueue 0 5, .enqueue 1 5, .enqueue 2 5, .enqueue 0 5, .peekNext] ∧
      applyCalls []
          [.enqueue 0 5, .enqueue 1 5, .enqueue 2 5, .enqueue 0 5, .peekNext] =
        [(1, 5), (2, 5), (0, 5)] ∧
      ∃ queue, runCalls (eventsCreated 3)
          [.enqueue 0 5, .enqueue 1 5, .enqueue 2 5, .enqueue 0 5, .peekNext] =
            some queue ∧
        eventPeekNext queue = some (some 1) := by
  have hallowed : CallsAllowed 3 []
      [.enqueue 0 5, .enqueue 1 5, .enqueue 2 5, .enqueue 0 5, .peekNext] := by
    simp [CallsAllowed, QueueCall.Allowed]
  obtain ⟨queue, -, hrun, -, -, -, -, hpeek⟩ :=
    eventQueue_refines_schedule 3 _ hallowed
  exact ⟨hallowed, by decide, queue, hrun, hpeek⟩

end Flurry.Events
