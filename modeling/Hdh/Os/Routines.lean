import Hdh.Sched.Dispatch
import Hdh.Timer.LockStep

/-!
# The threads of the simulator

`os.c` runs one loader thread and `num_cpus` CPU threads, each of which is a
device of the timer, over the scheduler of `sched.c`.  One step of the model is
one section under a mutex, or one read or write of the global `done`; what a
thread does on its own variables in between belongs to the step before or after
it.

A process is named by its index in the configuration.  Of the program of a
process the model keeps the length: `run` advances `pc`, and no instruction
changes the scheduler or the timer.
-/

namespace Hdh
namespace Os

open Sched

/-- What `read_config` and `load` read from the input files.  The processes are
those with an index below `numProcesses`. -/
structure Config where
  timeSlot : Int
  numProcesses : Nat
  startTime : Nat → Nat
  prio : Nat → Nat
  priority : Nat → Nat
  codeSize : Nat → Nat

/-- The fields of a PCB that the scheduler reads. -/
def Config.fields (cfg : Config) : PcbFields Nat where
  priority := cfg.priority
  prio := cfg.prio

/-- Where a thread of `cpu_routine` is. -/
inductive CpuAt
  /-- At the head of `while (1)`. -/
  | top
  /-- At the `get_proc` of the branch without a process. -/
  | getIdle
  /-- At the `get_proc` behind `free(proc)`. -/
  | getFin
  /-- At `put_proc`. -/
  | put
  /-- At the `get_proc` behind `put_proc`. -/
  | getPut
  /-- At the recheck `proc == NULL && done`. -/
  | recheck
  /-- At `run(proc)`. -/
  | exec
  /-- At the call of `next_slot`. -/
  | enter
  /-- In `next_slot`. -/
  | inSlot
  /-- Behind the `break`. -/
  | detach
  /-- Behind `detach_event`. -/
  | stopped
deriving DecidableEq

/-- Where the thread of `ld_routine` is. -/
inductive LdAt
  /-- At the head of `while (i < num_processes)`. -/
  | load
  /-- At the test `current_time() < start_time[i]`. -/
  | wait
  /-- At the call of `next_slot` while waiting for the start time. -/
  | enterWait
  /-- In this call. -/
  | inSlotWait
  /-- At `add_proc`. -/
  | add
  /-- At the call of `next_slot` behind `add_proc`. -/
  | enterAdd
  /-- In this call. -/
  | inSlotAdd
  /-- At `done = 1`. -/
  | setDone
  /-- At `detach_event`. -/
  | detach
  /-- Behind `detach_event`. -/
  | finished
deriving DecidableEq

/-- The devices: the loader is `none` and each CPU is `some c`. -/
abbrev Device (n : Nat) := Option (Fin n)

/-- `attach_event` puts each new device in front: the loader comes last. -/
def devList (n : Nat) : List (Device n) :=
  none :: (List.finRange n).reverse.map some

/-- The state of the simulator.  The variable `proc` of a CPU is what the CPU
holds in `sched`.  `seen` is not in the source: it remembers, for each CPU, how
many processes had been added when its last `get_proc` answered. -/
structure State (n : Nat) where
  timer : Timer.State (Device n)
  sched : Dispatch (Fin n) Nat
  cpu : Fin n → CpuAt
  timeLeft : Fin n → Int
  pc : Nat → Nat
  ld : LdAt
  i : Nat
  done : Bool
  seen : Fin n → Nat

/-- The steps of the threads. -/
inductive Act (n : Nat)
  /-- The timer thread. -/
  | tick
  /-- A spurious wake-up of the timer thread. -/
  | wakeTimer
  /-- A spurious wake-up of a thread in `next_slot`. -/
  | wake (d : Device n)
  /-- `stop_timer`, called when every thread has been joined. -/
  | stop
  /-- A thread of `cpu_routine`. -/
  | cpu (c : Fin n)
  /-- The thread of `ld_routine`. -/
  | ld
deriving DecidableEq

/-- The state in which the threads are created. -/
def boot {n : Nat} : State n where
  timer := Timer.start
  sched := Dispatch.boot
  cpu := fun _ => .top
  timeLeft := fun _ => 0
  pc := fun _ => 0
  ld := .load
  i := 0
  done := false
  seen := fun _ => 0

namespace State

variable {n : Nat}

/-- A CPU goes on to `a`. -/
def goCpu (s : State n) (c : Fin n) (a : CpuAt) : State n :=
  { s with cpu := Function.update s.cpu c a }

/-- The loader goes on to `a`. -/
def goLd (s : State n) (a : LdAt) : State n :=
  { s with ld := a }

/-- One section of `timer.c`. -/
def onTimer (s : State n) (a : Timer.Act (Device n)) : Option (State n) :=
  (Timer.step (devList n) s.timer a).map fun t => { s with timer := t }

/-- One section of `sched.c`. -/
def onSched (cfg : Config) (s : State n) (a : DispatchAct (Fin n) Nat) :
    Option (State n) :=
  (Dispatch.step cfg.fields s.sched a).map fun d => { s with sched := d }

/-- `proc = get_proc()`. -/
def getProc (cfg : Config) (s : State n) (c : Fin n) : Option (State n) :=
  (s.onSched cfg (.getProc c)).map fun t =>
    { t with seen := Function.update t.seen c t.i }

/-- The second section of `next_slot` by a CPU: it returns, or goes to sleep. -/
def nextSlotCpu (s : State n) (c : Fin n) : Option (State n) :=
  (s.onTimer (.check (some c))).map fun t =>
    t.goCpu c (if t.timer.dev (some c) = .working then .top else .inSlot)

/-- The second section of `next_slot` by the loader. -/
def nextSlotLd (s : State n) (here back : LdAt) : Option (State n) :=
  (s.onTimer (.check none)).map fun t =>
    t.goLd (if t.timer.dev none = .working then back else here)

/-- `run`: fetch an instruction and advance `pc`. -/
def run (cfg : Config) (s : State n) (p : Nat) : State n :=
  if s.pc p ≥ cfg.codeSize p then s
  else { s with pc := Function.update s.pc p (s.pc p + 1) }

end State

variable {n : Nat} (cfg : Config)

open State

/-- One step of `cpu_routine`. -/
def cpuRoutine (s : State n) (c : Fin n) : Option (State n) :=
  match s.cpu c with
  | .top =>
      match s.sched.hold c with
      | none => some (s.goCpu c .getIdle)
      | some p =>
          if s.pc p = cfg.codeSize p then
            (s.onSched cfg (.finish c)).map fun t => t.goCpu c .getFin
          else if s.timeLeft c = 0 then some (s.goCpu c .put)
          else some (s.goCpu c .recheck)
  | .getIdle =>
      (s.getProc cfg c).map fun t =>
        t.goCpu c (if t.sched.hold c = none then .enter else .recheck)
  | .getFin =>
      (s.getProc cfg c).map fun t =>
        { t with timeLeft := Function.update t.timeLeft c 0 }.goCpu c .recheck
  | .put => (s.onSched cfg (.putProc c)).map fun t => t.goCpu c .getPut
  | .getPut => (s.getProc cfg c).map fun t => t.goCpu c .recheck
  | .recheck =>
      match s.sched.hold c with
      | none => if s.done then some (s.goCpu c .detach) else some (s.goCpu c .enter)
      | some _ =>
          if s.timeLeft c = 0 then
            some ({ s with
              timeLeft := Function.update s.timeLeft c cfg.timeSlot }.goCpu c .exec)
          else some (s.goCpu c .exec)
  | .exec =>
      match s.sched.hold c with
      | none => none
      | some p =>
          let t := s.run cfg p
          some ({ t with
            timeLeft := Function.update t.timeLeft c (t.timeLeft c - 1) }.goCpu c .enter)
  | .enter => (s.onTimer (.enter (some c))).map fun t => t.goCpu c .inSlot
  | .inSlot => s.nextSlotCpu c
  | .detach => (s.onTimer (.detach (some c))).map fun t => t.goCpu c .stopped
  | .stopped => none

/-- One step of `ld_routine`. -/
def ldRoutine (s : State n) : Option (State n) :=
  match s.ld with
  | .load =>
      if s.i < cfg.numProcesses then some (s.goLd .wait) else some (s.goLd .setDone)
  | .wait =>
      if s.timer.time < cfg.startTime s.i then some (s.goLd .enterWait)
      else some (s.goLd .add)
  | .enterWait => (s.onTimer (.enter none)).map fun t => t.goLd .inSlotWait
  | .inSlotWait => s.nextSlotLd .inSlotWait .wait
  | .add =>
      (s.onSched cfg (.addProc s.i)).map fun t =>
        { t with i := t.i + 1 }.goLd .enterAdd
  | .enterAdd => (s.onTimer (.enter none)).map fun t => t.goLd .inSlotAdd
  | .inSlotAdd => s.nextSlotLd .inSlotAdd .load
  | .setDone => some ({ s with done := true }.goLd .detach)
  | .detach => (s.onTimer (.detach none)).map fun t => t.goLd .finished
  | .finished => none

/-- One step of the simulator; `none` when the step is not possible. -/
def step (s : State n) : Act n → Option (State n)
  | .tick => s.onTimer .tick
  | .wakeTimer => s.onTimer .wakeTimer
  | .wake d => s.onTimer (.wake d)
  | .stop => s.onTimer .stop
  | .cpu c => cpuRoutine cfg s c
  | .ld => ldRoutine cfg s

/-- One step of the simulator as a relation. -/
def Step (s : State n) (a : Act n) (s' : State n) : Prop :=
  step cfg s a = some s'

end Os
end Hdh
