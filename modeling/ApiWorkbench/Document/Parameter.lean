import ApiWorkbench.Value.Reading

/-!
# Shared and own parameters

A path may declare parameters for all of its operations. They are joined to an
operation's own list: what the operation declares itself comes first and wins. Two
parameters are the same if they are references with the same pointer, or otherwise if
they agree in name and location.
-/

namespace ApiWorkbench.Document

variable {μ : Type}

/-- What identifies a parameter within an operation. -/
abbrev ParameterKey := Scalar × Scalar

/-- Equality of parameter keys. -/
def ParameterKey.same (a b : ParameterKey) : Bool :=
  a.1.same b.1 && a.2.same b.2

/-- The key of a parameter: its pointer if it is a reference, else its name
and its location. -/
def parameterKey (parameter : Tree.Members μ) : Except Fault ParameterKey := do
  match Members.get? "$ref" parameter with
  | some (.str pointer) => pure ("$ref", pointer)
  | some (.scalar (.torn pointer)) => pure ("$ref", .torn pointer)
  | _ =>
    let part (name : Scalar) := ((Members.get? name parameter).getD .null).name
    pure (← part "name", ← part "in")

/-- The keys of the objects in a list. -/
def parameterKeys : List (Tree μ) → Except Fault (List ParameterKey)
  | [] => pure []
  | .marked _ parameter :: rest => do
    let key ← parameterKey parameter
    pure (key :: (← parameterKeys rest))
  | _ :: rest => parameterKeys rest

/-- The objects of `shared` whose keys are new, each key once, given the keys
already `seen`. -/
def newParameters (seen : List ParameterKey) :
    List (Tree μ) → Except Fault (List (Tree μ))
  | [] => pure []
  | .marked mark parameter :: rest => do
    let key ← parameterKey parameter
    if seen.any (ParameterKey.same key) then newParameters seen rest
    else
      let others ← newParameters (key :: seen) rest
      pure (.marked mark parameter :: others)
  | _ :: rest => newParameters seen rest

/-- `own` followed by the shared parameters it does not declare. -/
def mergeParameters (shared own : List (Tree μ)) : Except Fault (List (Tree μ)) := do
  let seen ← parameterKeys own
  let added ← newParameters seen shared
  pure (own ++ added)

end ApiWorkbench.Document
