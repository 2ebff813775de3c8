/-!
# Node identifiers

Nodes sit on a ring of 2^16 positions. An identifier is a position, and all arithmetic on
identifiers wraps past the largest position back to 0. Two positions are reserved: `invalid` stands
for a missing node in messages and `thisNode` for the node itself in configuration files. Neither
is ever listed as a neighbour, but both are ordinary positions of the ring, since the position of an
application identifier may be any of the 2^16.

`clockwise a b` is the number of steps from `a` up to `b`; every question about order on the ring is
asked through it. The linear order of identifiers is the order of lists, not of the ring.
-/

namespace ChunkDirectory

/-- A position on the ring of 2^16 positions. -/
structure NodeId where
  val : UInt16
deriving DecidableEq, Inhabited

namespace NodeId

/-- The identifier at position `n`, counted modulo 2^16. -/
def ofNat (n : Nat) : NodeId := ⟨UInt16.ofNat n⟩

/-- The position of an identifier as a natural number. -/
def toNat (id : NodeId) : Nat := id.val.toNat

/-- The position in decimal. -/
def text (id : NodeId) : String := toString id.toNat

/-- Marks a missing or unusable node in messages. -/
def invalid : NodeId := ⟨0xFFFF⟩

/-- Stands for the node itself in configuration. -/
def thisNode : NodeId := ⟨0xFFFE⟩

/-- Whether the identifier may not name a node. -/
def isReserved (id : NodeId) : Bool := id = invalid || id = thisNode

/-- The identifier `delta` steps clockwise. -/
def forward (id : NodeId) (delta : UInt16) : NodeId := ⟨id.val + delta⟩

/-- The identifier `delta` steps counter-clockwise. -/
def back (id : NodeId) (delta : UInt16) : NodeId := ⟨id.val - delta⟩

/-- Steps from `a` clockwise up to `b`, 0 when they are equal. -/
def clockwise (a b : NodeId) : Nat := (b.val - a.val).toNat

instance : LT NodeId := ⟨fun a b => a.toNat < b.toNat⟩
instance : LE NodeId := ⟨fun a b => a.toNat ≤ b.toNat⟩

instance (a b : NodeId) : Decidable (a < b) := inferInstanceAs (Decidable (a.toNat < b.toNat))
instance (a b : NodeId) : Decidable (a ≤ b) := inferInstanceAs (Decidable (a.toNat ≤ b.toNat))

theorem lt_def {a b : NodeId} : a < b ↔ a.toNat < b.toNat := Iff.rfl

theorem le_def {a b : NodeId} : a ≤ b ↔ a.toNat ≤ b.toNat := Iff.rfl

theorem toNat_lt (id : NodeId) : id.toNat < 65536 := id.val.toNat_lt

theorem toNat_injective {a b : NodeId} (h : a.toNat = b.toNat) : a = b := by
  cases a; cases b
  exact congrArg NodeId.mk (UInt16.toNat_inj.mp h)

theorem toNat_eq_iff {a b : NodeId} : a.toNat = b.toNat ↔ a = b :=
  ⟨toNat_injective, congrArg toNat⟩

theorem lt_irrefl (a : NodeId) : ¬ a < a := Nat.lt_irrefl _

theorem lt_trans {a b c : NodeId} (hab : a < b) (hbc : b < c) : a < c := Nat.lt_trans hab hbc

theorem ne_of_lt {a b : NodeId} (h : a < b) : a ≠ b := fun e => lt_irrefl b (e ▸ h)

theorem not_lt {a b : NodeId} : ¬ a < b ↔ b ≤ a := Nat.not_lt

theorem lt_or_gt_of_ne {a b : NodeId} (h : a ≠ b) : a < b ∨ b < a :=
  Nat.lt_or_gt_of_ne fun e => h (toNat_injective e)

/-- Clockwise distance in plain arithmetic. -/
theorem clockwise_eq (a b : NodeId) :
    clockwise a b = (65536 - a.toNat + b.toNat) % 65536 := by
  simp only [clockwise, toNat, UInt16.toNat_sub]

theorem clockwise_lt (a b : NodeId) : clockwise a b < 65536 := UInt16.toNat_lt _

@[simp] theorem clockwise_self (a : NodeId) : clockwise a a = 0 := by
  have := toNat_lt a
  rw [clockwise_eq]; omega

theorem clockwise_eq_zero_iff {a b : NodeId} : clockwise a b = 0 ↔ a = b := by
  rw [← toNat_eq_iff, clockwise_eq]
  have := toNat_lt a; have := toNat_lt b
  omega

end NodeId

end ChunkDirectory
