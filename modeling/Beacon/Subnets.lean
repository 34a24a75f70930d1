import Beacon.Constants

set_option autoImplicit false

/-! # Gossip subnets

Which attestation subnets a node has joined, and until when. A committee has its subnet by its
remainder; the first request for a subnet joins it, later ones can only put off its expiry, and on
each slot the subnets whose expiry lies in the past are left. -/

namespace Beacon

/-- What a node tells the network about a subnet. -/
inductive Membership where
  | join (subnet : Subnet)
  | leave (subnet : Subnet)
  deriving DecidableEq, Repr

/-- The subnets joined after a message, in increasing order. -/
def Membership.applyTo (joined : List Subnet) : Membership → List Subnet
  | .join s => (joined.filter (· < s)) ++ s :: joined.filter (s < ·)
  | .leave s => joined.filter (· ≠ s)

/-- The subnets a node has joined, each with the last slot it is needed for. -/
structure SubnetTracker where
  count : Nat
  /-- In increasing order of subnets, none twice. -/
  expiries : List (Subnet × Slot) := []
  deriving DecidableEq, Inhabited

namespace SubnetTracker

/-- A tracker over a number of subnets, at least one. -/
def create (count : Nat) : SubnetTracker where
  count := max count 1

/-- The subnet of a committee. -/
def subnetFor (t : SubnetTracker) (committee : CommitteeIndex) : Subnet := committee % t.count

/-- The last slot a subnet is needed for, if it is joined. -/
def expiry? (t : SubnetTracker) (subnet : Subnet) : Option Slot :=
  (t.expiries.find? (·.1 == subnet)).map (·.2)

/-- The joined subnets in increasing order. -/
def active (t : SubnetTracker) : List Subnet := t.expiries.map (·.1)

/-- Put a subnet in its place. -/
def insert (subnet : Subnet) (expiry : Slot) : List (Subnet × Slot) → List (Subnet × Slot)
  | [] => [(subnet, expiry)]
  | x :: xs => if subnet < x.1 then (subnet, expiry) :: x :: xs else x :: insert subnet expiry xs

/-- Keep the subnet of a committee joined through `slot`. -/
def subscribe (t : SubnetTracker) (committee : CommitteeIndex) (slot : Slot) :
    SubnetTracker × List Membership :=
  let subnet := t.subnetFor committee
  match t.expiry? subnet with
  | some _ =>
    ({ t with expiries := t.expiries.map fun x => if x.1 = subnet then (x.1, max x.2 slot) else x }, [])
  | none => ({ t with expiries := insert subnet slot t.expiries }, [.join subnet])

/-- The subnets whose expiry lies before `slot`. -/
def expired (t : SubnetTracker) (slot : Slot) : List Subnet :=
  (t.expiries.filter (·.2 < slot)).map (·.1)

/-- Leave the subnets whose expiry lies before `slot`. -/
def onSlot (t : SubnetTracker) (slot : Slot) : SubnetTracker × List Membership :=
  ({ t with expiries := t.expiries.filter (slot ≤ ·.2) }, (t.expired slot).map .leave)

end SubnetTracker

end Beacon
