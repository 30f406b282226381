import BranchStream.Rewriting.Grammar

namespace BranchStream

structure Expander where
  grammar : Grammar
  last : Option (Nat × Word)

namespace Expander

def ofGrammar (g : Grammar) : Expander := ⟨g, none⟩

def lastCount (e : Expander) : Option Nat := e.last.map Prod.fst

/-- The expansion for `n` passes, taken from memory if it was the last one asked for. -/
def expand (e : Expander) (n : Nat) : Word × Expander :=
  match e.last with
  | some (m, w) => if m = n then (w, e) else recompute
  | none => recompute
where
  recompute : Word × Expander :=
    let w := e.grammar.expand n
    (w, { e with last := some (n, w) })

end Expander

end BranchStream
