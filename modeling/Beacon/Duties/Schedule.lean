import Beacon.Duties.Duty
import Beacon.Duties.Failure

set_option autoImplicit false

/-! # The duty schedule

Which epochs have their duties loaded, which are being loaded, and which slots wait for a load. An
epoch signal moves the schedule on and orders loads for the epoch and those after it that are loaded
ahead; a slot signal orders the duties of its slot to be dispatched, or, while its epoch is being
loaded, queues the slot with its start time. Epochs before the previous one are forgotten.

The schedule only decides: what it orders is done elsewhere, and the end of a load comes back to it
by `finish`. -/

namespace Beacon

/-- What is known of the duties of an epoch. -/
inductive EpochDuties where
  /-- They are being loaded; the slots that have started meanwhile wait, with their start times. -/
  | loading (pending : List (Slot × Nat))
  | loaded (set : DutySet)

/-- What a schedule wants to be done. -/
inductive Order where
  | load (epoch : Epoch)
  /-- Perform the duties of a slot that started at a time. -/
  | dispatch (set : DutySet) (slot : Slot) (started : Nat)
  /-- Forget the forks of the epochs before the oldest one that is kept. -/
  | forget (oldest : Epoch)

/-- The schedule of a validator client. -/
structure Schedule where
  slotsPerEpoch : Nat
  /-- Epochs after the current one that are loaded ahead. -/
  lookahead : Nat
  current : Option Epoch := none
  /-- In increasing order of epochs, none twice. -/
  epochs : List (Epoch × EpochDuties) := []

namespace Schedule

/-- What is known of an epoch, if anything. -/
def duties? (s : Schedule) (epoch : Epoch) : Option EpochDuties :=
  (s.epochs.find? (·.1 == epoch)).map (·.2)

/-- Put an entry in its place, over another one of its epoch. -/
def place (epoch : Epoch) (duties : EpochDuties) :
    List (Epoch × EpochDuties) → List (Epoch × EpochDuties)
  | [] => [(epoch, duties)]
  | x :: xs =>
    if epoch < x.1 then (epoch, duties) :: x :: xs
    else if epoch = x.1 then (epoch, duties) :: xs
    else x :: place epoch duties xs

/-- Note what is known of an epoch. -/
def put (s : Schedule) (epoch : Epoch) (duties : EpochDuties) : Schedule :=
  { s with epochs := place epoch duties s.epochs }

/-- Forget an epoch. -/
def erase (s : Schedule) (epoch : Epoch) : Schedule :=
  { s with epochs := s.epochs.filter (·.1 ≠ epoch) }

/-- Whether the duties of an epoch are kept: it is the previous one, the current one, or one of those
that are loaded ahead. Before the first signal every epoch is. -/
def inWindow (s : Schedule) (epoch : Epoch) : Bool :=
  match s.current with
  | none => true
  | some current => current - 1 ≤ epoch && epoch ≤ Word.addSat current s.lookahead

/-- The current epoch and those that are loaded ahead. -/
def ahead (s : Schedule) (current : Epoch) : List Epoch :=
  List.range' current (Word.addSat current s.lookahead + 1 - current)

/-- Those of the given epochs of which nothing is known. -/
def missing (s : Schedule) (epochs : List Epoch) : List Epoch :=
  epochs.filter fun e => (s.duties? e).isNone

/-! ## Signals -/

/-- An epoch has begun. Signals of epochs that have passed are ignored. -/
def onEpoch (s : Schedule) (epoch : Epoch) : List Order × Schedule :=
  if s.current.any (epoch < ·) then ([], s)
  else
    let oldest := epoch - 1
    let s := { s with current := some epoch, epochs := s.epochs.filter (oldest ≤ ·.1) }
    let wanted := s.missing (s.ahead epoch)
    (.forget oldest :: wanted.map .load, wanted.foldl (fun s e => s.put e (.loading [])) s)

/-- Let the first slot of a later epoch announce its epoch. -/
def enter (s : Schedule) (epoch : Epoch) : List Order × Schedule :=
  if s.current.all (· < epoch) then s.onEpoch epoch else ([], s)

/-- A slot has begun. -/
def onSlot (s : Schedule) (slot : Slot) (now : Nat) : List Order × Schedule :=
  let epoch := slot / s.slotsPerEpoch
  let (orders, s) := s.enter epoch
  match s.duties? epoch with
  | some (.loaded set) => (orders ++ [.dispatch set slot now], s)
  | some (.loading pending) => (orders, s.put epoch (.loading (pending ++ [(slot, now)])))
  | none =>
    if s.inWindow epoch then (orders ++ [.load epoch], s.put epoch (.loading [(slot, now)]))
    else (orders, s)

/-- A load has ended. Its duties are dropped if the epoch has been forgotten; after a failure nothing
is known of the epoch, so that the next signal orders its load again. -/
def finish (s : Schedule) (epoch : Epoch) (result : Except LoadError DutySet) : List Order × Schedule :=
  match result, s.duties? epoch with
  | _, none => ([], s)
  | .ok set, some (.loading pending) =>
    (pending.map fun p => .dispatch set p.1 p.2, s.put epoch (.loaded set))
  | .ok set, some (.loaded _) => ([], s.put epoch (.loaded set))
  | .error _, some (.loading _) => ([], s.erase epoch)
  | .error _, some (.loaded _) => ([], s)

end Schedule

end Beacon
