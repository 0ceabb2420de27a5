import Flurry.Multitasking.EventQueue

/-!
# Alarms

The scheduler sees the event queue as a partial map from events to alarms: when
they are due and what is called then.  These lemmas say what the queue functions
do to the alarms and to the order in which they are due.
-/

namespace Flurry.Events

open LinkedTree

/-- What an enqueued event will do. -/
@[ext]
structure Alarm where
  time : ℕ
  callback : Option EventCallback
  arg : Option ThreadPtr
  deriving DecidableEq, Repr

def Event.toAlarm (fields : Event) : Alarm :=
  ⟨fields.time, fields.callback, fields.callbackArg⟩

theorem Event.toAlarm_congr {left right : Event} (hpayload : left.payload = right.payload) :
    left.toAlarm = right.toAlarm := by
  change left.payload.toAlarm = right.payload.toAlarm
  rw [hpayload]

namespace EventQueue

/-- The alarm of an event, if it is enqueued. -/
def alarm (queue : EventQueue) (event : EventPtr) : Option Alarm :=
  if (queue.events event).enqueued then some (queue.events event).toAlarm else none

/-- The queue holds the events of the schedule in their order. -/
def Keeps (queue : EventQueue) (schedule : Schedule) : Prop :=
  ∃ shape, queue.Represents shape schedule

section Keeps

variable {queue : EventQueue} {schedule : Schedule} {event : EventPtr}

theorem alarm_congr {after : EventQueue}
    (henqueued : (after.events event).enqueued = (queue.events event).enqueued)
    (hpayload : (after.events event).payload = (queue.events event).payload) :
    after.alarm event = queue.alarm event := by
  rw [alarm, alarm, henqueued, Event.toAlarm_congr hpayload]

theorem Keeps.peekNext (hkeeps : queue.Keeps schedule) :
    eventPeekNext queue = some (schedule.head?.map Prod.fst) := by
  obtain ⟨shape, hlinked, -, rfl⟩ := hkeeps
  rw [eventPeekNext_eq hlinked]
  cases shape.inorder <;> rfl

theorem Keeps.sorted (hkeeps : queue.Keeps schedule) :
    schedule.Pairwise fun left right => left.2 ≤ right.2 := by
  obtain ⟨shape, -, hordered, rfl⟩ := hkeeps
  rw [List.pairwise_map]
  exact hordered.sorted

theorem Keeps.nodup (hkeeps : queue.Keeps schedule) :
    (schedule.map Prod.fst).Nodup := by
  obtain ⟨shape, hlinked, -, rfl⟩ := hkeeps
  rw [List.map_map]
  exact (List.map_id shape.inorder).symm ▸ hlinked.holds.nodup

/-- The schedule lists the alarms with their times. -/
theorem Keeps.mem_iff (hkeeps : queue.Keeps schedule) {time : ℕ} :
    (event, time) ∈ schedule ↔ ∃ alarm, queue.alarm event = some alarm ∧
      alarm.time = time := by
  obtain ⟨shape, hlinked, -, rfl⟩ := hkeeps
  have henqueued := hlinked.enqueued event
  by_cases hmem : event ∈ shape.inorder
  · have hflag := henqueued.mpr hmem
    simp only [alarm, hflag, if_true, Option.some.injEq, exists_eq_left', List.mem_map,
      Prod.mk.injEq]
    constructor
    · rintro ⟨other, -, rfl, htime⟩
      exact htime
    · intro htime
      exact ⟨event, hmem, rfl, htime⟩
  · have hflag : (queue.events event).enqueued = false :=
      Bool.eq_false_iff.mpr fun hflag => hmem (henqueued.mp hflag)
    simp only [alarm, hflag, List.mem_map, Prod.mk.injEq]
    constructor
    · rintro ⟨other, hother, rfl, -⟩
      exact absurd hother hmem
    · simp

/-- Taking an enqueued event out. -/
theorem Keeps.remove (hkeeps : queue.Keeps schedule)
    (hevent : event ∈ schedule.map Prod.fst) :
    ∃ after, eventRemove queue (some event) = some after ∧
      after.Keeps (schedule.remove event) ∧ after.created = queue.created ∧
        after.alarm = Function.update queue.alarm event none ∧
          ∀ other, (after.events other).payload = (queue.events other).payload := by
  obtain ⟨shape, hlinked, hordered, rfl⟩ := hkeeps
  have hmem : event ∈ shape.inorder := by simpa using hevent
  obtain ⟨after, rest, hremove, hafter, herase, htransfer, hsame⟩ :=
    eventRemove_spec hlinked hmem
  refine ⟨after, hremove, ⟨rest, hafter, ?_, ?_⟩, hsame.created, ?_, hsame.payload⟩
  · rw [hsame.time]
    exact htransfer _ hordered
  · rw [hsame.time, herase, map_erase_eq_remove hlinked.holds.nodup fun _ _ => rfl]
  · funext other
    by_cases hother : other = event
    · subst hother
      have hgone : (after.events other).enqueued = false := by
        rw [Bool.eq_false_iff, ne_eq, hafter.enqueued, herase]
        exact hlinked.holds.nodup.not_mem_erase
      simp [alarm, hgone]
    · rw [Function.update_of_ne hother]
      apply alarm_congr _ (hsame.payload other)
      rw [Bool.eq_iff_iff, hafter.enqueued, hlinked.enqueued, herase,
        List.mem_erase_of_ne hother]

/-- Taking the first event out. -/
theorem Keeps.remove_head {time : ℕ} (hkeeps : queue.Keeps ((event, time) :: schedule)) :
    ∃ after, eventRemove queue (some event) = some after ∧ after.Keeps schedule ∧
      after.created = queue.created ∧
        after.alarm = Function.update queue.alarm event none ∧
          ∀ other, (after.events other).payload = (queue.events other).payload := by
  have hrest : Schedule.remove ((event, time) :: schedule) event = schedule := by
    have hnotMem := (List.nodup_cons.mp hkeeps.nodup).1
    rw [Schedule.remove, List.filter_cons_of_neg (by simp), List.filter_eq_self]
    intro entry hentry
    simp only [ne_eq, decide_eq_true_eq]
    rintro rfl
    exact hnotMem (List.mem_map.mpr ⟨entry, hentry, rfl⟩)
  obtain ⟨after, hremove, hafter, hspec⟩ := hkeeps.remove (show event ∈ _ by simp)
  exact ⟨after, hremove, hrest ▸ hafter, hspec⟩

/-- Storing to an event and putting it behind all events that are not later,
whether or not it is enqueued already. -/
theorem Keeps.enqueue (hkeeps : queue.Keeps schedule) (hevent : event < queue.created)
    {change : Event → Event}
    (hchange : ∀ fields : Event, (change fields).left = fields.left ∧
      (change fields).right = fields.right ∧ (change fields).parent = fields.parent ∧
        (change fields).enqueued = fields.enqueued) :
    ∃ after, eventEnqueue (queue.modify event change) (some event) = some after ∧
      after.Keeps (schedule.enqueue event (change (queue.events event)).time) ∧
        after.created = queue.created ∧
          after.alarm = Function.update queue.alarm event
            (some (change (queue.events event)).toAlarm) := by
  obtain ⟨shape, hlinked, hordered, rfl⟩ := hkeeps
  set changed := queue.modify event change with hchanged
  have hchangedLinked : changed.Linked shape := hlinked.modify hchange
  have hself : changed.events event = change (queue.events event) := by
    rw [hchanged, events_modify_self]
  have hothers : ∀ other, other ≠ event → changed.events other = queue.events other :=
    fun other hother => events_modify_of_ne hother
  have htime : ∀ other, other ≠ event → changed.time other = queue.time other := by
    intro other hother
    rw [EventQueue.time, hothers other hother, EventQueue.time]
  obtain ⟨after, larger, henqueue, hafter, hlarger, hinorder, hsame⟩ :=
    eventEnqueue_spec hchangedLinked hordered
      (fun other _ hother => (htime other hother).symm) hevent
  have hmem : ∀ other, other ∈ larger.inorder ↔ other = event ∨ other ∈ shape.inorder := by
    intro other
    rw [hinorder, insertByKey, List.mem_orderedInsert]
    by_cases hother : other = event
    · simp [hother]
    · rw [List.mem_erase_of_ne hother]
  refine ⟨after, henqueue, ⟨larger, hafter, hlarger, ?_⟩, hsame.created, ?_⟩
  · rw [hsame.time, hinorder, map_insertByKey,
      map_erase_eq_remove hlinked.holds.nodup htime, EventQueue.time, hself]
    rfl
  · funext other
    by_cases hother : other = event
    · subst hother
      have hflag : (after.events other).enqueued = true := by
        rw [hafter.enqueued, hmem]
        exact Or.inl rfl
      rw [Function.update_self, alarm, hflag, if_pos rfl,
        Event.toAlarm_congr (hsame.payload other), hself]
    · rw [Function.update_of_ne hother]
      have hpayload := hsame.payload other
      rw [hothers other hother] at hpayload
      apply alarm_congr _ hpayload
      rw [Bool.eq_iff_iff, hafter.enqueued, hlinked.enqueued, hmem]
      simp [hother]

/-- Storing to an event that is not enqueued. -/
theorem Keeps.modify (hkeeps : queue.Keeps schedule) (hevent : queue.alarm event = none)
    {change : Event → Event}
    (hchange : ∀ fields : Event, (change fields).left = fields.left ∧
      (change fields).right = fields.right ∧ (change fields).parent = fields.parent ∧
        (change fields).enqueued = fields.enqueued) :
    (queue.modify event change).Keeps schedule ∧
      (queue.modify event change).alarm = queue.alarm := by
  obtain ⟨shape, hlinked, hordered, rfl⟩ := hkeeps
  have hflag : (queue.events event).enqueued = false := by
    by_contra hflag
    simp [alarm, hflag] at hevent
  have hgone : event ∉ shape.inorder := by
    rw [← hlinked.enqueued, hflag]
    simp
  have htime : ∀ other ∈ shape.inorder,
      (queue.modify event change).time other = queue.time other := by
    intro other hother
    rw [EventQueue.time, events_modify_of_ne (ne_of_mem_of_not_mem hother hgone),
      EventQueue.time]
  constructor
  · refine ⟨shape, hlinked.modify hchange, hordered.congr htime, ?_⟩
    apply List.map_congr_left
    intro other hother
    rw [htime other hother]
  · funext other
    by_cases hother : other = event
    · subst hother
      simp [alarm, hchange, hflag]
    · rw [alarm, alarm, events_modify_of_ne hother]

end Keeps

end EventQueue

/-! ## Alarms and flags -/

theorem alarm_eq_some {queue : EventQueue} {event : EventPtr} {alarm : Alarm}
    (halarm : queue.alarm event = some alarm) : (queue.events event).toAlarm = alarm := by
  unfold EventQueue.alarm at halarm
  split at halarm
  · exact Option.some.inj halarm
  · simp at halarm

/-- An operation that keeps the payload of an enqueued event keeps what it will do. -/
theorem toAlarm_of_payload {queue after : EventQueue} {event : EventPtr} {alarm : Alarm}
    (halarm : queue.alarm event = some alarm)
    (hpayload : (after.events event).payload = (queue.events event).payload) :
    (after.events event).toAlarm = alarm := by
  rw [← alarm_eq_some halarm]
  exact Event.toAlarm_congr hpayload

/-- The event of a sleeping thread still wakes it after such an operation. -/
theorem wakes_of_payload {queue after : EventQueue} {event : EventPtr} {alarm : Alarm}
    (halarm : queue.alarm event = some alarm)
    (hpayload : (after.events event).payload = (queue.events event).payload)
    (hcallback : alarm.callback = some .threadWake) (harg : alarm.arg = some event) :
    (after.events event).callback = some .threadWake ∧
      (after.events event).callbackArg = some event := by
  have hfields := toAlarm_of_payload halarm hpayload
  exact ⟨(congrArg Alarm.callback hfields).trans hcallback,
    (congrArg Alarm.arg hfields).trans harg⟩

theorem alarm_eq_none {queue : EventQueue} {event : EventPtr}
    (halarm : queue.alarm event = none) : (queue.events event).enqueued = false := by
  by_contra hflag
  simp [EventQueue.alarm, hflag] at halarm

theorem enqueued_of_alarm {queue : EventQueue} {event : EventPtr} {alarm : Alarm}
    (halarm : queue.alarm event = some alarm) :
    (queue.events event).enqueued = true := by
  by_contra hflag
  simp [EventQueue.alarm, hflag] at halarm

theorem alarm_of_enqueued {queue : EventQueue} {event : EventPtr}
    (hflag : (queue.events event).enqueued = true) :
    queue.alarm event = some (queue.events event).toAlarm :=
  if_pos hflag

end Flurry.Events
