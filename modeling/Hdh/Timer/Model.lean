import Mathlib.Data.List.Basic
import Mathlib.Logic.Function.Basic

/-!
# The timer and its devices

`timer.c` advances a global time when every attached device has finished its
work in the current slot.  The timer thread visits the devices twice in each
slot: it first waits, under the `event_lock` of each device, until the device has
set `done` or `fsh`, and after `_time++` it clears, under the `timer_lock` of each
device, its `done` flag.  A device ends its slot in `next_slot` and then waits,
under its own `timer_lock`, until `done` is cleared.

One step of the model is one section under a mutex.  A thread that waits on a
condition variable is modelled as asleep: it only goes on after a signal, or
after a spurious wake-up, and then tests its condition again.  The walks over
`dev_list` keep the rest of the list in `temp`, as the source does.  `_time` is a
natural number here; it does not come near `2 ^ 64`.
-/

namespace Hdh
namespace Timer

variable {D : Type}

/-- Where the thread of a device is. -/
inductive DevAt
  /-- Outside of `next_slot`. -/
  | working
  /-- In `next_slot`, about to test `done` under `timer_lock`. -/
  | entered
  /-- In `next_slot`, waiting on `timer_cond`. -/
  | asleep
  /-- Behind `detach_event`. -/
  | detached
deriving DecidableEq

/-- Where the timer thread is.  `temp` is the part of `dev_list` still to visit. -/
inductive TimerAt (D : Type)
  /-- At the head of `while (!timer_stop)`. -/
  | loop
  /-- About to lock the `event_lock` of the first device of `temp`. -/
  | collect (temp : List D) (fsh event : Nat)
  /-- Waiting on the `event_cond` of the first device of `temp`. -/
  | waiting (temp : List D) (fsh event : Nat)
  /-- About to lock the `timer_lock` of the first device of `temp`. -/
  | release (temp : List D) (fsh event : Nat)
  /-- Behind the `break`. -/
  | left
  /-- The loop has ended because of `timer_stop`. -/
  | stopped
deriving DecidableEq

/-- The state of `timer.c`; `returned` counts, for each device, the calls of
`next_slot` it has returned from. -/
structure State (D : Type) where
  time : Nat
  timerStop : Bool
  timer : TimerAt D
  done : D → Bool
  fsh : D → Bool
  dev : D → DevAt
  returned : D → Nat

/-- After `attach_event` for each device and `start_timer`. -/
def start : State D where
  time := 0
  timerStop := false
  timer := .loop
  done := fun _ => false
  fsh := fun _ => false
  dev := fun _ => .working
  returned := fun _ => 0

/-- The steps of the timer thread and of the devices. -/
inductive Act (D : Type)
  /-- The next section of the timer thread. -/
  | tick
  /-- A spurious wake-up of the timer thread. -/
  | wakeTimer
  /-- The first section of `next_slot`. -/
  | enter (d : D)
  /-- The second section of `next_slot`, up to its return or to its wait. -/
  | check (d : D)
  /-- A spurious wake-up of a device. -/
  | wake (d : D)
  /-- `detach_event`. -/
  | detach (d : D)
  /-- `stop_timer`, which the main thread reaches after joining every device. -/
  | stop
deriving DecidableEq

variable [DecidableEq D]

/-- `pthread_cond_signal` on the `event_cond` of a device. -/
def TimerAt.signal (d : D) : TimerAt D → TimerAt D
  | .waiting (x :: temp) fsh event =>
      if x = d then .collect (x :: temp) fsh event
      else .waiting (x :: temp) fsh event
  | t => t

/-- `pthread_cond_signal` on the `timer_cond` of a device. -/
def DevAt.signal : DevAt → DevAt
  | .asleep => .entered
  | a => a

variable (devList : List D)

/-- One section of `timer_routine`. -/
def tick (s : State D) : Option (State D) :=
  match s.timer with
  | .loop =>
      if s.timerStop then some { s with timer := .stopped }
      else some { s with timer := .collect devList 0 0 }
  | .collect [] fsh event =>
      some { s with time := s.time + 1, timer := .release devList fsh event }
  | .collect (d :: temp) fsh event =>
      if s.done d || s.fsh d then
        some { s with
          timer := .collect temp (if s.fsh d then fsh + 1 else fsh) (event + 1) }
      else some { s with timer := .waiting (d :: temp) fsh event }
  | .release [] fsh event =>
      if fsh = event then some { s with timer := .left }
      else some { s with timer := .loop }
  | .release (d :: temp) fsh event =>
      some { s with
        done := Function.update s.done d false
        dev := Function.update s.dev d (s.dev d).signal
        timer := .release temp fsh event }
  | .waiting .. => none
  | .left => none
  | .stopped => none

/-- The first section of `next_slot`. -/
def enter (s : State D) (d : D) : Option (State D) :=
  match s.dev d with
  | .working => some { s with
      done := Function.update s.done d true
      timer := s.timer.signal d
      dev := Function.update s.dev d .entered }
  | _ => none

/-- The second section of `next_slot`. -/
def check (s : State D) (d : D) : Option (State D) :=
  match s.dev d with
  | .entered =>
      if s.done d then some { s with dev := Function.update s.dev d .asleep }
      else some { s with
        dev := Function.update s.dev d .working
        returned := Function.update s.returned d (s.returned d + 1) }
  | _ => none

/-- `detach_event`. -/
def detachEvent (s : State D) (d : D) : Option (State D) :=
  match s.dev d with
  | .working => some { s with
      fsh := Function.update s.fsh d true
      timer := s.timer.signal d
      dev := Function.update s.dev d .detached }
  | _ => none

/-- One step; `none` when the step is not possible. -/
def step (s : State D) : Act D → Option (State D)
  | .tick => tick devList s
  | .wakeTimer =>
      match s.timer with
      | .waiting temp fsh event => some { s with timer := .collect temp fsh event }
      | _ => none
  | .enter d => if d ∈ devList then enter s d else none
  | .check d => if d ∈ devList then check s d else none
  | .wake d =>
      match s.dev d with
      | .asleep => some { s with dev := Function.update s.dev d .entered }
      | _ => none
  | .detach d => if d ∈ devList then detachEvent s d else none
  | .stop =>
      if ∀ d ∈ devList, s.dev d = .detached then some { s with timerStop := true }
      else none

/-- One step of the timer and its devices as a relation. -/
def Step (s : State D) (a : Act D) (s' : State D) : Prop :=
  step devList s a = some s'

end Timer
end Hdh
