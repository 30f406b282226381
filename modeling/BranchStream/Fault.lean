import BranchStream.Scalar
import BranchStream.Binary32.Decimal

namespace BranchStream

inductive Fault (α : Type) where
  | emptyStart
  | wideRuleKey (key : String)
  | notFinite (quantity : String)
  | lifetimeNotPositive (lifetime : α)
  | iterationsOutside (requested : Int) (max : Nat)
deriving DecidableEq

def Fault.message : Fault Float32 → String
  | .emptyStart => "start symbol is empty"
  | .wideRuleKey key => s!"rule key `{key}` must be exactly one symbol"
  | .notFinite quantity => s!"parameter `{quantity}` is not finite"
  | .lifetimeNotPositive lifetime =>
    s!"particle lifetime {Binary32.plainText lifetime} must be positive"
  | .iterationsOutside requested max => s!"iteration count {requested} is outside 0..={max}"

def requireFinite {α : Type} [Scalar α] :
    List (String × α) → Except (Fault α) Unit
  | [] => .ok ()
  | (name, x) :: rest => if Scalar.isFinite x then requireFinite rest else .error (.notFinite name)

theorem requireFinite_eq_ok_iff {α : Type} [Scalar α] {quantities : List (String × α)} :
    requireFinite quantities = .ok () ↔ ∀ q ∈ quantities, Scalar.isFinite q.2 = true := by
  induction quantities with
  | nil => simp [requireFinite]
  | cons q rest ih =>
    rw [requireFinite, List.forall_mem_cons, ← ih]
    by_cases h : Scalar.isFinite q.2 = true <;> simp [h]

end BranchStream
