/-!
A computation that is delayed until a thread asks for its result, and made at most once however
many threads ask. Threads take turns in atomic steps: reading the cell, acquiring or releasing the
forcing lock, giving up on it, starting the thunk and finishing it.
-/

set_option autoImplicit false

namespace Persistent

/-- What a thread that asks for the result does next. -/
inductive Phase (α : Type) where
  /-- About to read the cell. A timeout comes with the value to answer after it. -/
  | reading (timeout : Option α)
  | waiting (timeout : Option α)
  /-- Holds the lock, and is about to start the thunk unless the value is set. -/
  | holding
  | running
  | releasing (answer : α)
  /-- Gave up on the lock, and is about to read the cell again. -/
  | gaveUp (timeout : α)
  | done (answer : α)

structure Delay (α : Type) where
  /-- What the thunk computes. -/
  result : α
  value : Option α := none
  holder : Option Nat := none
  runs : Nat := 0
  threads : Array (Phase α) := #[]

namespace Delay

variable {α : Type}

def isRealized (d : Delay α) : Bool :=
  d.value.isSome

def goTo (d : Delay α) (thread : Nat) (phase : Phase α) : Delay α :=
  { d with threads := d.threads.setIfInBounds thread phase }

/-- A further thread, with a timeout or without. -/
def spawn (d : Delay α) (timeout : Option α) : Nat × Delay α :=
  (d.threads.size, { d with threads := d.threads.push (.reading timeout) })

/-- The next step of a thread. A thread that waits for a held lock, or is done, has none. -/
def advance? (d : Delay α) (thread : Nat) : Option (Delay α) :=
  match d.threads[thread]? with
  | none | some (.done _) => none
  | some (.reading timeout) =>
    match d.value with
    | some value => some (d.goTo thread (.done value))
    | none => some (d.goTo thread (.waiting timeout))
  | some (.waiting _) =>
    match d.holder with
    | some _ => none
    | none => some { d.goTo thread .holding with holder := some thread }
  | some .holding =>
    match d.value with
    | some value => some (d.goTo thread (.releasing value))
    | none => some { d.goTo thread .running with runs := d.runs + 1 }
  | some .running => some { d.goTo thread (.releasing d.result) with value := some d.result }
  | some (.releasing answer) => some { d.goTo thread (.done answer) with holder := none }
  | some (.gaveUp timeout) => some (d.goTo thread (.done (d.value.getD timeout)))

/-- A thread with a timeout gives up on a lock that is held. -/
def giveUp? (d : Delay α) (thread : Nat) : Option (Delay α) :=
  match d.threads[thread]?, d.holder with
  | some (.waiting (some timeout)), some _ => some (d.goTo thread (.gaveUp timeout))
  | _, _ => none

inductive Step (α : Type) where
  | spawn (timeout : Option α)
  | advance (thread : Nat)
  | giveUp (thread : Nat)

/-- A step that cannot be taken changes nothing. -/
def step (d : Delay α) : Step α → Delay α
  | .spawn timeout => (d.spawn timeout).2
  | .advance thread => (d.advance? thread).getD d
  | .giveUp thread => (d.giveUp? thread).getD d

def run (d : Delay α) (steps : List (Step α)) : Delay α :=
  steps.foldl step d

def answer? (d : Delay α) (thread : Nat) : Option α :=
  match d.threads[thread]? with
  | some (.done answer) => some answer
  | _ => none

/-- One thread reads, acquires, starts, finishes and releases, as far as it comes; if it is still
waiting then, it gives up and reads again. -/
def alone (thread : Nat) : List (Step α) :=
  List.replicate 5 (.advance thread) ++ [.giveUp thread, .advance thread]

/-- A new thread asks and runs alone to its answer. -/
def ask (d : Delay α) (timeout : Option α) : Option α × Delay α :=
  let (thread, d) := d.spawn timeout
  let d := d.run (alone thread)
  (d.answer? thread, d)

/-- A new thread asks and runs alone until it runs the thunk. -/
def start (d : Delay α) : Nat × Delay α :=
  let (thread, d) := d.spawn none
  (thread, d.run (List.replicate 3 (.advance thread)))

/-- A thread that runs the thunk finishes it, releases the lock and has its answer. -/
def finish (d : Delay α) (thread : Nat) : Option α × Delay α :=
  let d := d.run (List.replicate 2 (.advance thread))
  (d.answer? thread, d)

def spawnMany (d : Delay α) : Nat → List Nat × Delay α
  | 0 => ([], d)
  | n + 1 =>
    let (thread, d) := d.spawn none
    let (threads, d) := d.spawnMany n
    (thread :: threads, d)

/-- New threads ask at once and take turns, each one step at a time, until all have answers. -/
def askTogether (d : Delay α) (count : Nat) : List (Option α) × Delay α :=
  let (threads, d) := d.spawnMany count
  let round := threads.map Step.advance
  let d := d.run (List.replicate (5 * (count + 1)) round).flatten
  (threads.map d.answer?, d)

def text (item : α → String) (d : Delay α) : String :=
  match d.value with
  | none => "Delay(<pending>)"
  | some value => "Delay(" ++ item value ++ ")"

end Delay

end Persistent
