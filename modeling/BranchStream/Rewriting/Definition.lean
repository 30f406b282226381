import BranchStream.Rewriting.Grammar
import BranchStream.Turtle.Parameters

namespace BranchStream

structure Definition (α : Type) where
  start : String
  rules : Std.ExtTreeMap String String
  iterations : Nat
  parameters : Parameters α

structure Loaded (α : Type) where
  grammar : Grammar
  parameters : Parameters α
  iterations : Nat

variable {α : Type}

def Grammar.ofStart (start : Word) (rules : Rules) : Except (Fault α) Grammar :=
  if h : start = [] then .error .emptyStart else .ok ⟨start, rules, h⟩

def ruleSymbol (key : String) : Except (Fault α) Symbol :=
  match key.toList with
  | [c] => .ok c
  | _ => .error (.wideRuleKey key)

/-- The rules by symbol; the fault is that of the first key that is not one symbol. -/
def symbolRules : List (String × String) → Rules → Except (Fault α) Rules
  | [], rules => .ok rules
  | (key, production) :: rest, rules => do
    let c ← ruleSymbol key
    symbolRules rest (rules.insert c production.toList)

variable [Scalar α]

instance : Inhabited (Definition α) := ⟨⟨"L", ∅, 0, default⟩⟩

instance : Inhabited (Loaded α) := ⟨⟨default, default, 0⟩⟩

namespace Definition

def load (d : Definition α) : Except (Fault α) (Loaded α) := do
  d.parameters.validate
  let rules ← symbolRules d.rules.toList ∅
  let grammar ← Grammar.ofStart d.start.toList rules
  return ⟨grammar, d.parameters, d.iterations⟩

def loadOrDefault : Option (Definition α) → Loaded α
  | none => default
  | some d =>
    match d.load with
    | .ok l => l
    | .error _ => default

end Definition

end BranchStream
