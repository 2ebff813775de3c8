/-!
# The order of locks

A node's shared data sits behind locks of six levels. A thread may take a lock only when it holds
none of the same or a later level, so that no two threads can wait for each other in a circle. What
a thread holds is a set of levels, written as a six-bit mask with the first level last.
-/

namespace ChunkDirectory

/-- The levels in the order in which they may be taken. -/
inductive LockLevel where
  /-- Transitions between peer and superpeer. -/
  | role
  /-- Ring pointers and node lists. -/
  | overlay
  /-- The tree table. -/
  | data
  /-- The mapping table. -/
  | mapping
  /-- Pending failure notices. -/
  | failure
  /-- The upkeep worker. -/
  | worker
deriving DecidableEq

namespace LockLevel

/-- The place of a level in the order. -/
def index : LockLevel → Nat
  | .role => 0
  | .overlay => 1
  | .data => 2
  | .mapping => 3
  | .failure => 4
  | .worker => 5

def name : LockLevel → String
  | .role => "Role"
  | .overlay => "Overlay"
  | .data => "Data"
  | .mapping => "Mapping"
  | .failure => "Failure"
  | .worker => "Worker"

/-- All levels, first to last. -/
def all : List LockLevel := [.role, .overlay, .data, .mapping, .failure, .worker]

end LockLevel

/-- The levels a thread holds. -/
structure HeldLocks where
  levels : List LockLevel
deriving DecidableEq

namespace HeldLocks

def none : HeldLocks := ⟨[]⟩

def holds (held : HeldLocks) (level : LockLevel) : Bool := level ∈ held.levels

/-- Whether a lock of this level may be taken. -/
def permits (held : HeldLocks) (level : LockLevel) : Bool :=
  held.levels.all (·.index < level.index)

/-- The held levels as bits, the last level first. -/
def mask (held : HeldLocks) : String :=
  String.ofList (LockLevel.all.reverse.map fun level => if held.holds level then '1' else '0')

/-- Takes a lock, or says why the order forbids it. -/
def acquire (held : HeldLocks) (level : LockLevel) : Except String HeldLocks :=
  if held.permits level then .ok ⟨level :: held.levels⟩
  else .error ("lock " ++ level.name
    ++ " acquired while holding an equal or later lock (held mask 0b" ++ held.mask ++ ")")

/-- Gives a lock back. -/
def release (held : HeldLocks) (level : LockLevel) : HeldLocks :=
  ⟨held.levels.filter (· ≠ level)⟩

end HeldLocks

end ChunkDirectory
