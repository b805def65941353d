/-!
Tables that hold each value once.
-/

namespace Behavior.Pool

/-- The index of a value in a table, which is added at the end if it is not there yet. -/
def intern [BEq α] (table : Array α) (value : α) : Nat × Array α :=
  match table.findIdx? (· == value) with
  | some index => (index, table)
  | none => (table.size, table.push value)

end Behavior.Pool
