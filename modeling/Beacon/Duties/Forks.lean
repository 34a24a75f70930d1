import Beacon.Duties.Duty
import Beacon.Duties.Failure

set_option autoImplicit false

/-! # Fork lookups

The fork of an epoch is asked for by one asker at a time. Whoever else needs it waits in line; an
answer is kept and given to everyone in line and to all who come later, a failure concerns its asker
alone and passes the turn to the next in line. Pruning forgets epochs, but not the lookups that are
under way: they end among those who wait for them, while newcomers start over. -/

namespace Beacon

/-- The lookup of one epoch, with the tickets of those who wait for it. -/
structure ForkLookup (τ : Type) where
  id : Nat
  epoch : Epoch
  /-- Whether newcomers are sent here. -/
  listed : Bool := true
  answer : Option ForkInfo := none
  /-- Whether somebody has the turn to ask. -/
  asking : Bool := false
  /-- Those who wait, first come first. -/
  line : List τ := []

/-- The lookups of all epochs. -/
structure Forks (τ : Type) where
  lookups : List (ForkLookup τ) := []
  nextId : Nat := 0

/-- What one who needs a fork is told. -/
inductive ForkEntry where
  | known (fork : ForkInfo)
  /-- It is his turn to ask, on behalf of a lookup. -/
  | ask (id : Nat)
  | wait
  deriving DecidableEq

namespace Forks

variable {τ : Type}

/-- The lookup that newcomers for an epoch are sent to. -/
def lookup? (f : Forks τ) (epoch : Epoch) : Option (ForkLookup τ) :=
  f.lookups.find? fun l => l.listed && l.epoch == epoch

/-- Change the lookup with an id. -/
def update (f : Forks τ) (id : Nat) (change : ForkLookup τ → ForkLookup τ) : Forks τ :=
  { f with lookups := f.lookups.map fun l => if l.id = id then change l else l }

/-- Somebody needs the fork of an epoch; if he has to wait, his ticket goes to the end of the line. -/
def enter (f : Forks τ) (epoch : Epoch) (ticket : τ) : ForkEntry × Forks τ :=
  match f.lookup? epoch with
  | none =>
    (.ask f.nextId,
      { lookups := f.lookups ++ [{ id := f.nextId, epoch, asking := true }], nextId := f.nextId + 1 })
  | some l =>
    match l.answer with
    | some fork => (.known fork, f)
    | none =>
      if l.asking then (.wait, f.update l.id fun l => { l with line := l.line ++ [ticket] })
      else (.ask l.id, f.update l.id fun l => { l with asking := true })

/-- The asker of a lookup has his answer: those who need not wait any longer, in order. -/
def answered (f : Forks τ) (id : Nat) (fork : ForkInfo) : List τ × Forks τ :=
  ((f.lookups.filter (·.id = id)).flatMap (·.line),
    f.update id fun l => { l with answer := some fork, asking := false, line := [] })

/-- The asker of a lookup failed: the next in line, whose turn it is now. -/
def failed (f : Forks τ) (id : Nat) : Option τ × Forks τ :=
  ((f.lookups.find? (·.id = id)).bind (·.line.head?),
    f.update id fun l => { l with asking := !l.line.isEmpty, line := l.line.tail })

/-- Forget the epochs before `oldest`. -/
def prune (f : Forks τ) (oldest : Epoch) : Forks τ :=
  { f with lookups := f.lookups.map fun l => if l.epoch < oldest then { l with listed := false } else l }

/-- How many epochs newcomers find a lookup for. -/
def cached (f : Forks τ) : Nat := f.lookups.countP (·.listed)

end Forks

end Beacon
