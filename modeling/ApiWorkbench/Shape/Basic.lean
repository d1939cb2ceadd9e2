import ApiWorkbench.Shape.Conversion

/-!
# Shapes

A shape describes what a value may be. Shapes refer to kinds of objects by name, so that
kinds may contain one another; what the fields of a kind are is given separately.
`check` lists what is wrong with a value.

The check goes down the value: from each part it first makes a function from shapes to
problems, and these are all that a shape needs to be checked. So no shape, however the
kinds refer to one another, can make it go on forever.
-/

namespace ApiWorkbench

/-- What a value may be; `K` are the kinds of objects. -/
inductive Shape (K : Type) where
  /-- anything -/
  | any
  /-- a text, or a number taken for one -/
  | text
  /-- a truth value -/
  | flag
  /-- one of a few words -/
  | word (words : List String)
  | list (item : Shape K)
  /-- an object with values of one shape -/
  | map (value : Shape K)
  /-- an object of a kind -/
  | kind (k : K)
  /-- null or a value of a shape -/
  | nullable (shape : Shape K)
  /-- a value of one of several shapes, each with a label -/
  | either (choices : List (String × Shape K))

namespace Shape

/-- A field of a kind of object. -/
structure Field (K : Type) where
  name : String
  /-- a second name that the field may be under -/
  alternative : Option String := none
  required : Bool := false
  shape : Shape K

/-- Kinds of objects. -/
structure Kinds (K : Type) where
  label : K → String
  fields : K → List (Field K)
  /-- what else may be wrong with an object whose fields are all right -/
  further : K → Members → List Cause

/-- Whether a problem ends a check, so that the value has no shape to speak of, even
where there is a choice. -/
def Problem.endsCheck (p : Problem) : Bool :=
  p.cause == .notWritable

/-- The check of a part of a value. -/
abbrev Check (K : Type) := Shape K → List Problem

variable {K : Type}

/-- The name that a field is under, and the check of the member there. -/
def fieldCheck (field : Field K) (members : List (Scalar × Check K)) :
    Option (String × Check K) :=
  match Members.get? field.name members, field.alternative with
  | some check, _ => some (field.name, check)
  | none, some other => (Members.get? other members).map fun check => (other, check)
  | none, none => none

/-- The problems of the fields of an object, in the order of the fields. -/
def fieldProblems (fields : List (Field K)) (members : List (Scalar × Check K)) :
    List Problem :=
  fields.flatMap fun field =>
    match fieldCheck field members with
    | some (name, check) => (check field.shape).map (·.under name)
    | none => if field.required then [⟨[field.name], .missing⟩] else []

/-- The names that have to be texts and are none. -/
def strictNameProblems (members : List (Scalar × Check K)) : List Problem :=
  members.filterMap fun entry => match entry.1 with
    | .str _ => none
    | name => some ⟨[placeOf name], .nameNotText⟩

/-- The problems of the fields and the names of an object of a kind. Of an object with a
torn name nothing else is said, unless the check ends. -/
def memberProblems (fields : List (Field K)) (members : List (Scalar × Check K)) :
    List Problem :=
  let problems := fieldProblems fields members ++ strictNameProblems members
  if members.any fun entry => entry.1.isTorn then ⟨[], .notUtf8⟩ ::
    problems.filter Problem.endsCheck
  else problems

/-- The problems of an object of a kind. -/
def kindProblems (kinds : Kinds K) (k : K) (v : Value)
    (members : List (Scalar × Check K)) :
    List Problem :=
  match v with
  | .object ms =>
    match memberProblems (kinds.fields k) members with
    | [] => (kinds.further k ms).map fun cause => ⟨[], cause⟩
    | problems => problems
  | _ => [⟨[], .notInstance (kinds.label k)⟩]

/-- The problems of list items, each under its position. -/
def itemProblems (item : Shape K) : (position : Nat) → List (Check K) → List Problem
  | _, [] => []
  | position, check :: rest =>
    (check item).map (·.under (toString position)) ++
      itemProblems item (position + 1) rest

/-- The problems of the entries of a map, those of a name before those of its value. -/
def entryProblems (value : Shape K) (members : List (Scalar × Check K)) :
    List Problem :=
  members.flatMap fun (name, check) =>
    let place := placeOf name
    ((toTextOrNumber (.scalar name : Value)).problems.map fun p =>
      (p.under "[key]").under place) ++ (check value).map (·.under place)

mutual

/-- What is wrong with a value, given the checks of its items or members. -/
def problemsOf (kinds : Kinds K) (v : Value) (items : List (Check K))
    (members : List (Scalar × Check K)) :
    Shape K → List Problem
  | .any => []
  | .text => (toTextOrNumber v).problems
  | .flag => (toFlag v).problems
  | .word words => (toWord (words.map fun w => (w, ())) v).problems
  | .list item =>
    match v with
    | .list _ | .pair _ _ | .set _ => itemProblems item 0 items
    | _ => [⟨[], .notList⟩]
  | .map value =>
    match v with
    | .object _ => entryProblems value members
    | _ => [⟨[], .notObject⟩]
  | .kind k => kindProblems kinds k v members
  | .nullable shape => if v.isNull then [] else problemsOf kinds v items members shape
  | .either choices =>
    let problems := choiceProblems kinds v items members choices
    if problems.any List.isEmpty then problems.flatten.filter Problem.endsCheck
    else problems.flatten

/-- The problems of each choice. -/
def choiceProblems (kinds : Kinds K) (v : Value) (items : List (Check K))
    (members : List (Scalar × Check K)) : List (String × Shape K) → List (List Problem)
  | [] => []
  | (label, shape) :: rest =>
    (problemsOf kinds v items members shape).map (·.under label)
      :: choiceProblems kinds v items members rest

end

mutual

/-- What is wrong with a value that should have a shape. -/
def check (kinds : Kinds K) : Value → Check K
  | .scalar s => problemsOf kinds (.scalar s) [] []
  | .list xs => problemsOf kinds (.list xs) (itemChecks kinds xs) []
  | .pair a b => problemsOf kinds (.pair a b) [check kinds a, check kinds b] []
  | .set names =>
    problemsOf kinds (.set names)
      (names.map fun k => problemsOf kinds (.scalar k) [] []) []
  | .object ms => problemsOf kinds (.object ms) [] (memberChecks kinds ms)

/-- The checks of list items. -/
def itemChecks (kinds : Kinds K) : List Value → List (Check K)
  | [] => []
  | v :: rest => check kinds v :: itemChecks kinds rest

/-- The checks of members, under their names. -/
def memberChecks (kinds : Kinds K) : List (Scalar × Value) → List (Scalar × Check K)
  | [] => []
  | (k, v) :: rest => (k, check kinds v) :: memberChecks kinds rest

end

end Shape

end ApiWorkbench
