import Mathlib.Data.List.Infix
import IvyBus.Param

namespace IvyBus

/-- The library of regular expressions. A refused expression has an error offset and a message;
a match gives the start and the length of every group. -/
structure Engine (Code : Type) where
  compile : Str → Except (Int32 × Str) Code
  exec : Code → Str → Option (List (Nat × Nat))

/-- The engine on expressions without operators. -/
def literal : Engine Str where
  compile expression := .ok expression
  exec expression message := if expression <:+: message then some [] else none

variable {Code : Type}

def ivyBindingCompile (engine : Engine Code) (expression : Str) : Except (Int32 × Str) Code :=
  engine.compile expression

/-- `none` stands for a result less than 1. -/
def ivyBindingExec (engine : Engine Code) (bind : Option Code) (message : Str) :
    Option (List (Nat × Nat)) :=
  bind.bind fun code => engine.exec code message

def ivyBindingMatch (message : Str) (group : Nat × Nat) : Str :=
  (message.drop group.1).take group.2

/-- `messages_classes` and `token_extract`. -/
structure Filter (Code : Type) where
  messagesClasses : List Str
  tokenExtract : Option Code

def ivyBindingFilter (engine : Engine Code) (filter : Filter Code) (expression : Str) : Bool :=
  if expression.head? = some 94 ∧ filter.messagesClasses ≠ [] then
    match ivyBindingExec engine filter.tokenExtract expression with
    | none => true
    | some groups =>
      let token := ivyBindingMatch expression (groups.headD (0, 0))
      filter.messagesClasses.any fun word => word.take token.length = token
  else true

end IvyBus
