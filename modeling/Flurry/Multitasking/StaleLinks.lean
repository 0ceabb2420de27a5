import Flurry.Core.TreeReach
import Flurry.Multitasking.Alarms

/-!
# Links of events outside the queue

`bst_delete` finds the place of an event through the event's own links.  For an
event outside the tree these links say something else: empty links look like those
of a root without children, and the links that `event_dequeue` leaves in an event
describe a place that is no longer its own.
-/

namespace Flurry.Events

open LinkedTree EventQueue

namespace EventQueue

/-- The pointers under `event_root` form a tree with these events in order. -/
def Reads (queue : EventQueue) (events : List EventPtr) : Prop :=
  ∃ shape : Shape EventPtr, queue.store.Holds shape ∧ shape.inorder = events

/-- The queue holds its schedule, and the links of all other events are empty. -/
structure WellFormed (queue : EventQueue) (schedule : Schedule) : Prop where
  keeps : queue.Keeps schedule
  unlinked : ∀ event, (queue.events event).enqueued = false →
    queue.store.links event = ⟨none, none, none⟩

end EventQueue

/-! ## Calls keep the queue well formed -/

section Frame

variable {queue after : EventQueue} {shape : Shape EventPtr} {event other : EventPtr}

theorem eventRemove_of_not_mem (hlinked : queue.Linked shape)
    (hevent : event ∈ shape.inorder) (hrun : eventRemove queue (some event) = some after)
    (hother : other ∉ shape.inorder) : after.events other = queue.events other := by
  obtain ⟨-, -, -, deleted, -, hdelete, -, hframe⟩ := bstDelete_spec hlinked hevent
  rw [eventRemove_of_bstDelete hlinked hevent hdelete, Option.some.injEq] at hrun
  rw [← hrun, events_cleared_of_ne _ (ne_of_mem_of_not_mem hevent hother).symm]
  have hlinks := hframe other hother
  simp only [withStore, hlinks, links_store]

theorem eventEnqueue_eq (queue : EventQueue) (event : EventPtr) :
    eventEnqueue queue (some event) =
      (if (queue.events event).enqueued then eventRemove queue (some event)
        else some queue).bind fun middle =>
          (eventBstInsert (clearLinks middle event) event).map
            (setEnqueued · event true) := by
  cases hflag : (queue.events event).enqueued <;>
    simp [eventEnqueue, hflag, Option.map_eq_bind]

theorem eventEnqueue_of_not_mem (hlinked : queue.Linked shape)
    (hrun : eventEnqueue queue (some event) = some after)
    (hother : other ∉ shape.inorder) (hne : other ≠ event) :
    after.events other = queue.events other := by
  -- the insertion, into a tree without the event
  have hinsert : ∀ {middle : EventQueue} {rest : Shape EventPtr}, middle.Linked rest →
      event ∉ rest.inorder → other ∉ rest.inorder →
        (eventBstInsert (clearLinks middle event) event).map (setEnqueued · event true) =
          some after → after.events other = middle.events other := by
    intro middle rest hmiddle hevent hother hafter
    obtain ⟨inserted, hinserted, -, hframe⟩ := eventBstInsert_spec hmiddle hevent
    rw [hinserted, Option.map_some, Option.some.injEq] at hafter
    have hlinks := hframe other hother hne
    rw [← hafter, setEnqueued, events_modify_of_ne hne]
    simp only [withStore, hlinks, links_store, clearLinks, events_modify_of_ne hne]
  rw [eventEnqueue_eq] at hrun
  by_cases hevent : event ∈ shape.inorder
  · obtain ⟨middle, rest, hremove, hmiddle, herase, -, -⟩ := eventRemove_spec hlinked hevent
    rw [(hlinked.enqueued event).mpr hevent, if_pos rfl, hremove, Option.bind_some] at hrun
    have hgone : other ∉ rest.inorder := by
      rw [herase]
      exact fun hmem => hother (List.mem_of_mem_erase hmem)
    have hremoved : event ∉ rest.inorder := by
      rw [herase]
      exact hlinked.holds.nodup.not_mem_erase
    rw [hinsert hmiddle hremoved hgone hrun,
      eventRemove_of_not_mem hlinked hevent hremove hother]
  · have hflag : (queue.events event).enqueued = false := by
      simpa using mt (hlinked.enqueued event).mp hevent
    rw [hflag] at hrun
    exact hinsert hlinked hevent hother hrun

end Frame

theorem wellFormed_eventsCreated (count : ℕ) : (eventsCreated count).WellFormed [] := by
  refine ⟨⟨.nil, represents_eventsCreated count⟩, fun event _ => ?_⟩
  rw [eventsCreated_eq]
  rfl

/-- One allowed call keeps the queue well formed. -/
theorem QueueCall.run_wellFormed {queue : EventQueue} {schedule : Schedule}
    (call : QueueCall) (hwell : queue.WellFormed schedule)
    (hallowed : call.Allowed queue.created schedule) :
    ∃ after, call.run queue = some after ∧ after.WellFormed (call.apply schedule) ∧
      after.created = queue.created := by
  have hkeeps := hwell.keeps
  have hunlinked := hwell.unlinked
  obtain ⟨shape, hlinked, -, -⟩ := hwell.keeps
  -- an event that neither was nor is enqueued is not touched
  have hkept : ∀ {after : EventQueue} {event : EventPtr}, queue.alarm event = none →
      (event ∉ shape.inorder → after.events event = queue.events event) →
        after.store.links event = ⟨none, none, none⟩ := by
    intro after event halarm hsame
    have hflag := alarm_eq_none halarm
    have hmem : event ∉ shape.inorder := by
      rw [← hlinked.enqueued, hflag]
      simp
    rw [links_store, hsame hmem]
    exact hunlinked event hflag
  cases call with
  | enqueue target time =>
      have hchange : ∀ fields : Event, ({ fields with time := time } : Event).left =
          fields.left ∧ ({ fields with time := time } : Event).right = fields.right ∧
            ({ fields with time := time } : Event).parent = fields.parent ∧
              ({ fields with time := time } : Event).enqueued = fields.enqueued :=
        fun _ => ⟨rfl, rfl, rfl, rfl⟩
      obtain ⟨after, hrun, hafter, hcreated, halarm⟩ := hkeeps.enqueue hallowed hchange
      refine ⟨after, hrun, ⟨hafter, fun event hevent => ?_⟩, hcreated⟩
      have hnone : after.alarm event = none := by simp [alarm, hevent]
      rw [halarm] at hnone
      have hne : event ≠ target := by
        rintro rfl
        simp at hnone
      rw [Function.update_of_ne hne] at hnone
      apply hkept hnone
      intro hmem
      rw [eventEnqueue_of_not_mem (hlinked.modify hchange) hrun hmem hne,
        events_modify_of_ne hne]
  | remove target =>
      obtain ⟨after, hrun, hafter, hcreated, halarm, -⟩ := hkeeps.remove hallowed
      have htarget : target ∈ shape.inorder := by
        obtain ⟨entry, hentry, rfl⟩ := List.mem_map.mp hallowed
        obtain ⟨alarm, hsome, -⟩ := hkeeps.mem_iff.mp hentry
        exact (hlinked.enqueued _).mp (enqueued_of_alarm hsome)
      refine ⟨after, hrun, ⟨hafter, fun event hevent => ?_⟩, hcreated⟩
      by_cases hne : event = target
      · subst hne
        obtain ⟨-, -, -, deleted, -, hdelete, -⟩ := bstDelete_spec hlinked htarget
        rw [eventRemove_of_bstDelete hlinked htarget hdelete, Option.some.injEq] at hrun
        simp [← hrun, setEnqueued, clearLinks]
      · have hnone : after.alarm event = none := by simp [alarm, hevent]
        rw [halarm, Function.update_of_ne hne] at hnone
        exact hkept hnone fun hmem => eventRemove_of_not_mem hlinked htarget hrun hmem
  | peekNext =>
      exact ⟨queue, by simp [QueueCall.run, eventPeekNext_eq hlinked], hwell, rfl⟩

/-- All queues that calls lead to are well formed. -/
theorem runCalls_wellFormed {queue : EventQueue} {schedule : Schedule}
    (calls : List QueueCall) (hwell : queue.WellFormed schedule)
    (hallowed : CallsAllowed queue.created schedule calls) :
    ∃ after, runCalls queue calls = some after ∧
      after.WellFormed (applyCalls schedule calls) := by
  induction calls generalizing queue schedule with
  | nil => exact ⟨queue, rfl, hwell⟩
  | cons call calls ih =>
      obtain ⟨hcall, hcalls⟩ := hallowed
      obtain ⟨next, hrun, hnext, hcreated⟩ := call.run_wellFormed hwell hcall
      rw [← hcreated] at hcalls
      obtain ⟨after, hrest, hafter⟩ := ih hnext hcalls
      refine ⟨after, ?_, hafter⟩
      simpa [runCalls, hrun] using hrest

/-! ## Removing an event that is not queued -/

/-- The links of the event are those of a root without children, so the whole tree is
replaced by nothing. -/
theorem eventRemove_of_unlinked {queue : EventQueue} {event root : EventPtr}
    (hroot : queue.eventRoot = some root)
    (hlinks : queue.store.links event = ⟨none, none, none⟩) :
    ∃ after, eventRemove queue (some event) = some after ∧ after.eventRoot = none := by
  obtain ⟨hleft, hright, hparent⟩ := (Links.mk.injEq ..).mp hlinks
  refine ⟨setEnqueued (clearLinks (bstTransplant queue event none) event) event false,
    ?_, ?_⟩
  · simp [eventRemove, hroot, bstDelete, hleft, hright]
  · change (bstTransplant queue event none).eventRoot = none
    simp [bstTransplant, hparent, setParentOf, setRoot]

/-- Removing an event that is not queued leaves the queue as it is exactly if the queue
is empty. -/
theorem eventRemove_unqueued_iff {queue : EventQueue} {schedule : Schedule}
    {event : EventPtr} (hwell : queue.WellFormed schedule)
    (hunqueued : (queue.events event).enqueued = false) :
    ∃ after, eventRemove queue (some event) = some after ∧
      (after.Reads (schedule.map Prod.fst) ↔ queue.eventRoot = none) := by
  obtain ⟨shape, hlinked, -, rfl⟩ := hwell.keeps
  have hevents : (shape.inorder.map fun event => (event, queue.time event)).map Prod.fst =
      shape.inorder := by
    rw [List.map_map]
    exact List.map_id shape.inorder
  rw [hevents]
  cases hroot : queue.eventRoot with
  | none =>
      refine ⟨queue, by simp [eventRemove, hroot], ?_⟩
      exact iff_of_true ⟨shape, hlinked.holds, rfl⟩ rfl
  | some root =>
      obtain ⟨after, hremove, hafter⟩ :=
        eventRemove_of_unlinked hroot (hwell.unlinked event hunqueued)
      refine ⟨after, hremove, iff_of_false ?_ (by simp)⟩
      rintro ⟨shape', hholds, hinorder⟩
      have hmem : root ∈ shape'.inorder := by
        rw [hinorder]
        exact Shape.mem_inorder_of_root? (hlinked.holds.root.symm.trans hroot)
      obtain ⟨root', hroot'⟩ := Shape.exists_root?_of_mem hmem
      rw [← hholds.root, root_store, hafter] at hroot'
      exact absurd hroot' (by simp)

/-- An event that was never enqueued, removed from an empty queue. -/
theorem eventRemove_unqueued_empty :
    ∃ after, eventRemove (eventsCreated 1) (some 0) = some after ∧ after.Reads [] := by
  obtain ⟨after, hremove, hreads⟩ :=
    @eventRemove_unqueued_iff _ _ 0 (wellFormed_eventsCreated 1) rfl
  exact ⟨after, hremove, hreads.mpr rfl⟩

/-- Event 0 is queued.  Removing event 1, which never was, empties the queue. -/
theorem eventRemove_unqueued_drops_queue :
    ∃ queue after, runCalls (eventsCreated 2) [.enqueue 0 5] = some queue ∧
      queue.WellFormed [(0, 5)] ∧ queue.Reads [0] ∧
      (queue.events 1).enqueued = false ∧ eventRemove queue (some 1) = some after ∧
      after.eventRoot = none ∧ (after.events 0).enqueued = true := by
  have hallowed : CallsAllowed 2 [] [.enqueue 0 5] := by
    simp [CallsAllowed, QueueCall.Allowed]
  obtain ⟨queue, hrun, hwell⟩ :=
    runCalls_wellFormed [.enqueue 0 5] (wellFormed_eventsCreated 2) hallowed
  obtain ⟨shape, hlinked, -, hentries⟩ := hwell.keeps
  have hinorder : shape.inorder = [0] := by
    have hfst := congrArg (List.map Prod.fst) hentries
    rw [List.map_map] at hfst
    exact (List.map_id shape.inorder).symm.trans hfst
  have hremove : ∃ after, (queue.events 1).enqueued = false ∧
      eventRemove queue (some 1) = some after ∧ after.eventRoot = none ∧
        (after.events 0).enqueued = true := by
    obtain rfl := Option.some.inj hrun
    exact ⟨_, rfl, rfl, rfl, rfl⟩
  obtain ⟨after, hafter⟩ := hremove
  exact ⟨queue, after, hrun, hwell, ⟨shape, hlinked.holds, hinorder⟩, hafter⟩

/-! ## Two ways of taking the next event -/

section Requeue

variable {queue : EventQueue} {shape rest : Shape EventPtr} {spine : Context EventPtr}
variable {first : EventPtr}

/-- `event_dequeue` takes out the first event, whose left link is empty, and leaves its
fields alone. -/
theorem eventDequeue_spec (hlinked : queue.Linked shape)
    (hshape : shape = spine.fill (.node .nil first rest))
    (hfirst : shape.inorder.head? = some first) :
    ∃ dequeued, eventDequeue queue = some (dequeued, first) ∧
      bstDelete queue first = some dequeued ∧ dequeued.store.Holds (spine.fill rest) ∧
        dequeued.events first = queue.events first ∧
          first ∉ (spine.fill rest).inorder ∧ dequeued.created = queue.created ∧
            queue.store.links first = ⟨none, rest.root?, spine.parent?⟩ := by
  subst hshape
  have hholds := hlinked.holds
  have hlinks : queue.store.links first = ⟨none, rest.root?, spine.parent?⟩ :=
    (realises_fill_iff.mp hholds.links).2.1
  have hrest := (realises_fill_iff.mp hholds.links).2.2.2
  have hperm := Context.inorder_fill_node_perm spine .nil rest first
  have hnodup := List.nodup_cons.mp (hperm.nodup_iff.mp hholds.nodup)
  have hfill : (spine.fill rest).inorder =
      spine.before ++ (Shape.nil.inorder ++ rest.inorder) ++ spine.after := by
    rw [Context.inorder_fill]
    rfl
  rw [← hfill] at hnodup
  obtain ⟨hafter, hframe⟩ := Store.holds_transplant hholds.fills hrest hnodup.2
  have hdelete : bstDelete queue first =
      some (queue.withStore (queue.store.transplant first rest.root?)) := by
    obtain ⟨hleft, hright, -⟩ := (Links.mk.injEq ..).mp hlinks
    simp only [bstDelete, hleft, hright, bstTransplant_eq]
  have hpeek : eventPeekNext queue = some (some first) := by
    rw [eventPeekNext_eq hlinked, hfirst]
  refine ⟨_, ?_, hdelete, hafter, ?_, hnodup.1, rfl, hlinks⟩
  · rw [eventPeekNext] at hpeek
    cases hroot : queue.eventRoot with
    | none => simp [hroot, bstMinimum] at hpeek
    | some root =>
        have hminimum : bstMinimumLoop queue queue.created root = some first := by
          simpa [hroot, bstMinimum] using hpeek
        simp [eventDequeue, hroot, hminimum, hdelete]
  · have hkept := hframe first hnodup.1
    simp only [withStore, hkept, links_store]

/-- Enqueueing an event that the links do not lead to adds it and nothing else, even if
some events hang in two places. -/
theorem eventBstInsert_reaches {target : Shape EventPtr} {event : EventPtr}
    (hroot : queue.store.root = target.root?)
    (hrealises : Realises queue.store.links none target)
    (hheight : target.height ≤ queue.created) (hevent : event ∉ target.inorder) :
    ∃ after, (eventBstInsert (clearLinks queue event) event).map
        (setEnqueued · event true) = some after ∧
      ∀ other, after.store.Reaches other ↔ other = event ∨ other ∈ target.inorder := by
  have hlinks : (clearLinks queue event).store.links event = ⟨none, none, none⟩ := by
    simp [clearLinks]
  have hrealises' : Realises (clearLinks queue event).store.links none target := by
    apply hrealises.congr
    intro other hother
    have hne : other ≠ event := ne_of_mem_of_not_mem hother hevent
    simp [clearLinks, events_modify_of_ne hne]
  have hroot' : (clearLinks queue event).store.root = target.root? := hroot
  obtain ⟨inserted, hinsert, hreaches⟩ := Store.insert_reaches
    (fun other => decide (((clearLinks queue event).events event).time <
      ((clearLinks queue event).events other).time)) hroot' hrealises' hheight hevent hlinks
  refine ⟨setEnqueued ((clearLinks queue event).withStore inserted) event true, ?_, ?_⟩
  · rw [eventBstInsert_eq]
    have hcreated : (clearLinks queue event).created = queue.created := rfl
    rw [hcreated, hinsert]
    rfl
  · intro other
    rw [store_setEnqueued, store_withStore, hreaches, Store.reaches_iff hroot' hrealises']

/-- What the links say after the first event was taken out by `event_dequeue` and once
more by `event_remove`. -/
def takenTwice (rest : Shape EventPtr) : Context EventPtr → Shape EventPtr
  | .top => rest
  | .left outer parent _ => outer.fill (.node rest parent rest)
  | .right outer sibling parent => outer.fill (.node sibling parent rest)

theorem height_takenTwice_le
    (hspine : spine = .top ∨ ∃ outer parent sibling, spine = .left outer parent sibling) :
    (takenTwice rest spine).height ≤ (spine.fill (.node .nil first rest)).height := by
  rcases hspine with rfl | ⟨outer, parent, sibling, rfl⟩
  · simp [takenTwice, Context.fill, Shape.height]
  · apply Context.height_fill_mono
    simp only [Shape.height]
    omega

/-- The second time, `bst_delete` follows the stale links of the event. -/
theorem transplant_of_dequeued {store : Store EventPtr}
    (hspine : spine = .top ∨ ∃ outer parent sibling, spine = .left outer parent sibling)
    (hholds : store.Holds (spine.fill rest))
    (hlinks : store.links first = ⟨none, rest.root?, spine.parent?⟩)
    (hfirst : first ∉ (spine.fill rest).inorder) :
    (store.transplant first rest.root?).root = (takenTwice rest spine).root? ∧
      Realises (store.transplant first rest.root?).links none (takenTwice rest spine) ∧
        first ∉ (takenTwice rest spine).inorder := by
  have hparent : (store.links first).parent = spine.parent? := by rw [hlinks]
  rcases hspine with rfl | ⟨outer, parent, sibling, rfl⟩
  · change store.Holds rest at hholds
    obtain ⟨hroot, hsame⟩ := Store.transplant_of_former_root hholds hparent
    rw [hroot, hsame]
    exact ⟨hholds.root, hholds.links, hfirst⟩
  · obtain ⟨hroot, hrealises⟩ := Store.transplant_of_former_left hholds hfirst hparent
    refine ⟨?_, hrealises, ?_⟩
    · rw [hroot, hholds.root, takenTwice, Context.fill, Context.root?_fill,
        Context.root?_fill]
      rfl
    · simp only [takenTwice, Context.fill, Context.inorder_fill, Shape.inorder_node,
        List.mem_append, List.mem_cons] at hfirst ⊢
      tauto

/-- `event_remove` on an event that `event_dequeue` has taken out. -/
theorem eventRemove_of_dequeued {dequeued : EventQueue}
    (hspine : spine = .top ∨ ∃ outer parent sibling, spine = .left outer parent sibling)
    (hholds : dequeued.store.Holds (spine.fill rest))
    (hlinks : dequeued.store.links first = ⟨none, rest.root?, spine.parent?⟩)
    (hfirst : first ∉ (spine.fill rest).inorder) :
    ∃ again, eventRemove dequeued (some first) = some again ∧
      again.created = dequeued.created ∧
        again.store.root = (takenTwice rest spine).root? ∧
          Realises again.store.links none (takenTwice rest spine) ∧
            first ∉ (takenTwice rest spine).inorder := by
  obtain ⟨hroot, hrealises, hgone⟩ :=
    transplant_of_dequeued hspine hholds hlinks hfirst
  cases hstart : dequeued.eventRoot with
  | none =>
      -- the event was the only one
      have hempty : (spine.fill rest).root? = none := hholds.root.symm.trans hstart
      obtain rfl : spine = .top := by
        rcases hspine with htop | ⟨outer, parent, sibling, rfl⟩
        · exact htop
        · rw [Context.fill] at hempty
          obtain ⟨root, hmem⟩ := Shape.exists_root?_of_mem (show parent ∈
            (outer.fill (.node rest parent sibling)).inorder by simp [Context.inorder_fill])
          exact absurd (hempty.symm.trans hmem) (by simp)
      exact ⟨dequeued, by simp [eventRemove, hstart], rfl, hholds.root, hholds.links, hgone⟩
  | some root =>
      obtain ⟨hleft, hright, -⟩ := (Links.mk.injEq ..).mp hlinks
      set store := dequeued.store.transplant first rest.root? with hstore
      have hdelete : bstDelete dequeued first = some (dequeued.withStore store) := by
        simp only [bstDelete, hleft, hright, bstTransplant_eq, hstore]
      refine ⟨setEnqueued (clearLinks (dequeued.withStore store) first) first false,
        by simp [eventRemove, hstart, hdelete], rfl, hroot, ?_, hgone⟩
      apply hrealises.congr
      intro other hother
      rw [links_store, events_cleared_of_ne _ (ne_of_mem_of_not_mem hother hgone)]
      rfl

/-- All events of the queue are still there after the second removal exactly if the
first event was the root or its parent had no right child. -/
theorem mem_takenTwice_iff
    (hspine : spine = .top ∨ ∃ outer parent sibling, spine = .left outer parent sibling)
    (hholds : queue.store.Holds (spine.fill (.node .nil first rest))) :
    (∀ other ∈ (spine.fill (.node .nil first rest)).inorder,
        other = first ∨ other ∈ (takenTwice rest spine).inorder) ↔
      ∀ parent, (queue.events first).parent = some parent →
        (queue.events parent).right = none := by
  have hparent : (queue.events first).parent = spine.parent? :=
    congrArg Links.parent (realises_fill_iff.mp hholds.links).2.1
  rw [hparent]
  rcases hspine with rfl | ⟨outer, parent, sibling, rfl⟩
  · refine iff_of_true ?_ (by simp [Context.parent?])
    simp [takenTwice, Context.fill]
  · have hright : (queue.events parent).right = sibling.root? :=
      congrArg Links.right (realises_fill_iff.mp hholds.links).1.1
    simp only [Context.parent?, Option.some.injEq, forall_eq', hright]
    cases hsibling : sibling.root? with
    | none =>
        obtain rfl : sibling = .nil := by
          cases sibling with
          | nil => rfl
          | node => simp at hsibling
        refine iff_of_true (fun other hother => ?_) rfl
        simp only [Context.fill, takenTwice, Context.inorder_fill, Shape.inorder_node,
          Shape.inorder_nil, List.mem_append, List.mem_cons] at hother ⊢
        tauto
    | some root =>
        -- the root of the right subtree is nowhere else in the tree
        have hmem := Shape.mem_inorder_of_root? hsibling
        obtain ⟨-, hinner, hapart⟩ := Context.nodup_inorder_fill.mp
          (show (outer.fill (.node (.node .nil first rest) parent sibling)).inorder.Nodup
            from hholds.nodup)
        have houter := hapart root (by simp [hmem])
        simp only [Shape.inorder_node, Shape.inorder_nil, List.nil_append,
          List.nodup_append', List.nodup_cons] at hinner
        refine iff_of_false (fun hall => ?_) (by simp)
        have hroot := hall root (by simp [Context.fill, Context.inorder_fill, hmem])
        simp only [Context.nodes, List.mem_append, not_or] at houter
        simp only [takenTwice, Context.inorder_fill, Shape.inorder_node, List.mem_append,
          List.mem_cons] at hroot
        have hleft : root ∉ first :: rest.inorder := fun hleft =>
          hinner.2.2 hleft (List.mem_cons_of_mem parent hmem)
        have hne : root ≠ parent := ne_of_mem_of_not_mem hmem hinner.2.1.1
        simp only [List.mem_cons, not_or] at hleft
        tauto

/-- Enqueueing the first event again right after `event_dequeue`, with other fields
changed in between. -/
theorem eventEnqueue_of_dequeued {dequeued : EventQueue} {change : Event → Event}
    (hlinked : queue.Linked (spine.fill (.node .nil first rest)))
    (hspine : spine = .top ∨ ∃ outer parent sibling, spine = .left outer parent sibling)
    (hholds : dequeued.store.Holds (spine.fill rest))
    (hfirst : first ∉ (spine.fill rest).inorder)
    (hkept : dequeued.events first = queue.events first)
    (hcreated : dequeued.created = queue.created)
    (hlinks : queue.store.links first = ⟨none, rest.root?, spine.parent?⟩)
    (hchange : ∀ fields : Event, (change fields).left = fields.left ∧
      (change fields).right = fields.right ∧ (change fields).parent = fields.parent ∧
        (change fields).enqueued = fields.enqueued) :
    ∃ requeued, eventEnqueue (dequeued.modify first change) (some first) = some requeued ∧
      ∀ other, requeued.store.Reaches other ↔
        other = first ∨ other ∈ (takenTwice rest spine).inorder := by
  have hstore : (dequeued.modify first change).store = dequeued.store :=
    store_modify (fun fields => (hchange fields).1) (fun fields => (hchange fields).2.1)
      fun fields => (hchange fields).2.2.1
  have hflag : ((dequeued.modify first change).events first).enqueued = true := by
    rw [events_modify_self, (hchange _).2.2.2, hkept, hlinked.enqueued]
    simp [Context.inorder_fill]
  have hlinks' : dequeued.store.links first = ⟨none, rest.root?, spine.parent?⟩ := by
    rw [links_store, hkept]
    exact hlinks
  rw [← hstore] at hholds hlinks'
  obtain ⟨again, hagain, hcreated', hroot, hrealises, hgone⟩ :=
    eventRemove_of_dequeued hspine hholds hlinks' hfirst
  have hheight : (takenTwice rest spine).height ≤ again.created := by
    rw [hcreated']
    calc (takenTwice rest spine).height
        ≤ (spine.fill (.node .nil first rest)).height := height_takenTwice_le hspine
      _ ≤ (spine.fill (.node .nil first rest)).inorder.length := Shape.height_le_length _
      _ ≤ queue.created := hlinked.length_le
      _ = dequeued.created := hcreated.symm
  obtain ⟨requeued, hinsert, hreaches⟩ :=
    eventBstInsert_reaches hroot hrealises hheight hgone
  refine ⟨requeued, ?_, hreaches⟩
  rw [eventEnqueue_eq, hflag, if_pos rfl, hagain]
  exact hinsert

end Requeue

/-- `event_dequeue` takes the same event out of the queue as `event_remove` of the next
event and leaves the same queue, but it never clears the event: its links and its flag
are as they were in the queue.  If the event is changed and enqueued again, no event is
lost exactly if it was the root or its parent had no right child. -/
theorem eventDequeue_keeps_links {queue : EventQueue} {schedule : Schedule}
    (hwell : queue.WellFormed schedule) (hnonempty : schedule ≠ []) :
    ∃ event dequeued removed, eventDequeue queue = some (dequeued, event) ∧
      eventPeekNext queue = some (some event) ∧
      eventRemove queue (some event) = some removed ∧
      dequeued.eventRoot = removed.eventRoot ∧
      (∀ other, other ≠ event → dequeued.events other = removed.events other) ∧
      dequeued.events event = queue.events event ∧
      removed.events event = { queue.events event with
        left := none, right := none, parent := none, enqueued := false } ∧
      dequeued.events event ≠ removed.events event ∧
      ∀ change : Event → Event,
        (∀ fields : Event, (change fields).left = fields.left ∧
          (change fields).right = fields.right ∧
          (change fields).parent = fields.parent ∧
          (change fields).enqueued = fields.enqueued) →
        ∃ requeued,
          eventEnqueue (dequeued.modify event change) (some event) = some requeued ∧
          ((∀ other ∈ schedule.map Prod.fst, requeued.store.Reaches other) ↔
            ∀ parent, (queue.events event).parent = some parent →
              (queue.events parent).right = none) := by
  obtain ⟨shape, hlinked, -, hentries⟩ := hwell.keeps
  have hevents : schedule.map Prod.fst = shape.inorder := by
    rw [← hentries, List.map_map]
    exact List.map_id shape.inorder
  obtain ⟨member, hmember⟩ := List.exists_mem_of_ne_nil _ hnonempty
  obtain ⟨root, hroot⟩ := Shape.exists_root?_of_mem
    (hevents ▸ List.mem_map_of_mem hmember : member.1 ∈ shape.inorder)
  obtain ⟨spine, first, rest, hshape, hfirst, hspine⟩ := Shape.exists_first hroot
  obtain ⟨dequeued, hdequeue, hdelete, hholds, hkept, hgone, hcreated, hlinks⟩ :=
    eventDequeue_spec hlinked hshape hfirst
  have hmem : first ∈ shape.inorder := List.mem_of_mem_head? hfirst
  have hflag : (queue.events first).enqueued = true := (hlinked.enqueued first).mpr hmem
  have hcleared : (setEnqueued (clearLinks dequeued first) first false).events first =
      { queue.events first with
        left := none, right := none, parent := none, enqueued := false } := by
    simp [setEnqueued, clearLinks, hkept]
  refine ⟨first, dequeued, _, hdequeue, ?_,
    eventRemove_of_bstDelete hlinked hmem hdelete, rfl, ?_, hkept, hcleared, ?_, ?_⟩
  · rw [eventPeekNext_eq hlinked, hfirst]
  · intro other hother
    exact (events_cleared_of_ne dequeued hother).symm
  · intro hsame
    have hcontra := congrArg Event.enqueued hsame
    rw [hcleared, hkept, hflag] at hcontra
    exact absurd hcontra (by simp)
  · intro change hchange
    subst hshape
    obtain ⟨requeued, hrequeue, hreaches⟩ := eventEnqueue_of_dequeued hlinked hspine
      hholds hgone hkept hcreated hlinks hchange
    refine ⟨requeued, hrequeue, ?_⟩
    simp only [hevents, hreaches]
    exact mem_takenTwice_iff hspine hlinked.holds

/-- One event, dequeued and enqueued again at a later time. -/
theorem eventDequeue_keeps_links_one_event :
    ∃ queue dequeued requeued, runCalls (eventsCreated 1) [.enqueue 0 5] = some queue ∧
      eventDequeue queue = some (dequeued, 0) ∧ (dequeued.events 0).enqueued = true ∧
      eventEnqueue (dequeued.modify 0 fun fields => { fields with time := 9 }) (some 0) =
        some requeued ∧ requeued.store.Reaches 0 := by
  have hallowed : CallsAllowed 1 [] [.enqueue 0 5] := by
    simp [CallsAllowed, QueueCall.Allowed]
  obtain ⟨queue, hrun, hwell⟩ :=
    runCalls_wellFormed [.enqueue 0 5] (wellFormed_eventsCreated 1) hallowed
  obtain ⟨event, dequeued, removed, hdequeue, hpeek, -, -, -, hkept, -, -, hrequeue⟩ :=
    eventDequeue_keeps_links hwell (show applyCalls [] [.enqueue 0 5] ≠ [] by decide)
  obtain rfl : event = 0 := by
    rw [hwell.keeps.peekNext] at hpeek
    exact (Option.some.inj (Option.some.inj hpeek)).symm
  obtain ⟨requeued, hrequeued, hreaches⟩ :=
    hrequeue (fun fields => { fields with time := 9 }) fun _ => ⟨rfl, rfl, rfl, rfl⟩
  have hfields : (queue.events 0).enqueued = true ∧ (queue.events 0).parent = none := by
    obtain rfl := Option.some.inj hrun
    exact ⟨rfl, rfl⟩
  refine ⟨queue, dequeued, requeued, hrun, hdequeue, ?_, hrequeued, hreaches.mpr ?_ 0 ?_⟩
  · rw [hkept, hfields.1]
  · intro parent hparent
    rw [hfields.2] at hparent
    exact absurd hparent (by simp)
  · decide

/-- Event 1 has event 0 to its left and event 2 to its right.  After event 0 is dequeued
and enqueued again, event 2 is lost. -/
theorem eventDequeue_requeue_drops_event :
    ∃ queue dequeued requeued,
      runCalls (eventsCreated 3) [.enqueue 1 2, .enqueue 0 1, .enqueue 2 3] =
        some queue ∧ queue.Reads [0, 1, 2] ∧
      eventDequeue queue = some (dequeued, 0) ∧ (dequeued.events 0).enqueued = true ∧
      (dequeued.events 0).parent = some 1 ∧
      eventEnqueue (dequeued.modify 0 fun fields => { fields with time := 4 }) (some 0) =
        some requeued ∧ requeued.Reads [1, 0] ∧ (requeued.events 2).enqueued = true := by
  refine ⟨_, _, _, rfl, ?_, rfl, rfl, rfl, rfl, ?_, rfl⟩
  · exact ⟨.node (.node .nil 0 .nil) 1 (.node .nil 2 .nil),
      ⟨rfl, ⟨rfl, ⟨rfl, trivial, trivial⟩, rfl, trivial, trivial⟩, by decide⟩, rfl⟩
  · exact ⟨.node .nil 1 (.node .nil 0 .nil),
      ⟨rfl, ⟨rfl, trivial, rfl, trivial, trivial⟩, by decide⟩, rfl⟩

end Flurry.Events
