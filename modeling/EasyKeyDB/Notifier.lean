import EasyKeyDB.Library.UnorderedMap
import Mathlib.Data.Finset.Basic

/-!
# The I/O notifier

`IONotifier` of `io_notifier.cpp`: a wrapper around an epoll instance. The
interest list of the instance belongs to the kernel and answers the two
`epoll_ctl` calls; the count of tracked descriptors is the wrapper's own.
`wait_for_events` turns each reported event into an `Event` with one flag at
most, hang-up before input before output.
-/

namespace EasyKeyDB

structure EventType where
  flag : UInt32
deriving DecidableEq, Repr

namespace EventType

/-- `EPOLLIN` -/
def read : EventType := ⟨0x001⟩

/-- `EPOLLOUT` -/
def write : EventType := ⟨0x004⟩

/-- `EPOLLRDHUP` -/
def closeConnection : EventType := ⟨0x2000⟩

end EventType

structure Event where
  fileDescriptor : Int
  flags : UInt32
deriving DecidableEq, Repr

/-- `struct epoll_event`, as `epoll_wait` fills it in. -/
structure EpollEvent where
  events : UInt32
  fileDescriptor : Int
deriving DecidableEq, Repr

namespace Event

def new (fileDescriptor : Int) : Event := ⟨fileDescriptor, 0⟩

def add (event : Event) (type : EventType) : Event :=
  { event with flags := event.flags ||| type.flag }

def has (event : Event) (type : EventType) : Bool := type.flag &&& event.flags ≠ 0

def isFor (event : Event) (fileDescriptor : Int) : Bool :=
  event.fileDescriptor = fileDescriptor

/-- The body of the loop in `wait_for_events`. -/
def ofEpoll (returned : EpollEvent) : Event :=
  let event := Event.new returned.fileDescriptor
  if returned.events &&& EventType.closeConnection.flag ≠ 0 then
    event.add .closeConnection
  else if returned.events &&& EventType.read.flag ≠ 0 then
    event.add .read
  else if returned.events &&& EventType.write.flag ≠ 0 then
    event.add .write
  else event

@[simp] theorem fileDescriptor_ofEpoll (returned : EpollEvent) :
    (ofEpoll returned).fileDescriptor = returned.fileDescriptor := by
  unfold ofEpoll
  split_ifs <;> rfl

end Event

structure IONotifier where
  /-- The interest list of the epoll instance, with the flags asked for. -/
  interest : UnorderedMap Int UInt32
  trackedFileDescriptorsCount : UInt32

/-- `EPOLLET` -/
def edgeTriggered : UInt32 := 0x80000000

def epollAdd (interest : UnorderedMap Int UInt32) (fd : Int) (flags : UInt32) :
    Int × UnorderedMap Int UInt32 :=
  if interest.find? fd = none then (0, interest.insert fd flags) else (-1, interest)

def epollDel (interest : UnorderedMap Int UInt32) (fd : Int) :
    Int × UnorderedMap Int UInt32 :=
  if interest.find? fd = none then (-1, interest) else (0, interest.erase fd)

namespace IONotifier

def new (count : UInt32) : IONotifier := ⟨.empty, count⟩

def addEvent (notifier : IONotifier) (event : Event) : Bool × IONotifier :=
  let (result, interest) := epollAdd notifier.interest event.fileDescriptor
    (event.flags ||| edgeTriggered)
  -- `const bool success = epoll_ctl(...)`: the result 0 converts to false.
  let success : Bool := result ≠ 0
  let count := notifier.trackedFileDescriptorsCount
  (success,
    { interest, trackedFileDescriptorsCount := if success then count + 1 else count })

def deleteEvent (notifier : IONotifier) (event : Event) : Bool × IONotifier :=
  let (result, interest) := epollDel notifier.interest event.fileDescriptor
  let success : Bool := result ≠ 0
  let count := notifier.trackedFileDescriptorsCount
  (success,
    { interest, trackedFileDescriptorsCount := if success then count - 1 else count })

/-- When a descriptor is closed the kernel drops it from the interest list. -/
def closed (notifier : IONotifier) (fd : Int) : IONotifier :=
  { notifier with interest := notifier.interest.erase fd }

def Watches (notifier : IONotifier) (fd : Int) : Prop :=
  ∃ flags, notifier.interest.find? fd = some flags

instance (notifier : IONotifier) (fd : Int) : Decidable (notifier.Watches fd) :=
  decidable_of_iff (notifier.interest.find? fd).isSome Option.isSome_iff_exists

theorem watches_addEvent (notifier : IONotifier) (event : Event) (fd : Int) :
    (notifier.addEvent event).2.Watches fd ↔
      notifier.Watches fd ∨ event.fileDescriptor = fd := by
  unfold addEvent epollAdd Watches
  by_cases hnew : notifier.interest.find? event.fileDescriptor = none
  · rw [if_pos hnew]
    simp only [UnorderedMap.find?_insert]
    by_cases hfd : event.fileDescriptor = fd
    · subst hfd
      simp [hnew]
    · simp [hfd]
  · rw [if_neg hnew]
    constructor
    · exact Or.inl
    · rintro (h | rfl)
      · exact h
      · exact Option.ne_none_iff_exists'.mp hnew

theorem watches_deleteEvent (notifier : IONotifier) (event : Event) (fd : Int) :
    (notifier.deleteEvent event).2.Watches fd ↔
      notifier.Watches fd ∧ event.fileDescriptor ≠ fd := by
  unfold deleteEvent epollDel Watches
  by_cases hnone : notifier.interest.find? event.fileDescriptor = none
  · rw [if_pos hnone]
    constructor
    · rintro ⟨flags, hflags⟩
      refine ⟨⟨flags, hflags⟩, ?_⟩
      rintro rfl
      rw [hnone] at hflags
      cases hflags
    · exact And.left
  · rw [if_neg hnone]
    simp only [UnorderedMap.find?_erase]
    by_cases hfd : event.fileDescriptor = fd
    · simp [hfd]
    · simp [hfd]

theorem watches_closed (notifier : IONotifier) (fd fd' : Int) :
    (notifier.closed fd).Watches fd' ↔ notifier.Watches fd' ∧ fd ≠ fd' := by
  unfold closed Watches
  simp only [UnorderedMap.find?_erase]
  by_cases hfd : fd = fd'
  · simp [hfd]
  · simp [hfd]

end IONotifier

end EasyKeyDB
