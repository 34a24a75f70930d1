import Beacon.Chain.State

set_option autoImplicit false

/-! # The deposit log

The deposits that the contract has accepted, in order; a deposit has its place as its index. -/

namespace Beacon

/-- The deposits accepted so far. -/
structure DepositLog where
  deposits : Array DepositData := #[]
  deriving DecidableEq, Inhabited

namespace DepositLog

/-- How many deposits have been accepted. -/
def size (l : DepositLog) : Nat := l.deposits.size

/-- Accept a deposit. -/
def record (l : DepositLog) (d : DepositData) : DepositLog := ⟨l.deposits.push d⟩

/-- The accepted deposits with their indices. -/
def toList (l : DepositLog) : List Deposit :=
  l.deposits.toList.zipIdx.map fun p => { index := p.2, data := p.1 }

/-- The root over the first deposits, if there are that many. -/
def root? (l : DepositLog) (count : Nat) : Option Root :=
  if count ≤ l.size then some (hashRoot (l.toList.take count)) else none

/-- The next deposits for a state, at most `limit` of them. -/
def depositsFor (l : DepositLog) (s : ChainState) (limit : Nat) : List Deposit :=
  (l.toList.drop s.depositIndex).take limit

@[simp] theorem length_toList (l : DepositLog) : l.toList.length = l.size := by
  simp [toList, size]

@[simp] theorem size_record (l : DepositLog) (d : DepositData) : (l.record d).size = l.size + 1 := by
  simp [record, size]

theorem toList_record (l : DepositLog) (d : DepositData) :
    (l.record d).toList = l.toList ++ [{ index := l.size, data := d }] := by
  simp [toList, record, size, List.zipIdx_append]

end DepositLog

end Beacon
