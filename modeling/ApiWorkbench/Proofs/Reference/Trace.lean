import ApiWorkbench.Proofs.Marks
import ApiWorkbench.Reference.Expansion

/-!
# Expansion that marks what a cut covers

Where a pointer is being expanded already, the object that has it is left as it is:
there the value is cut. Nothing strictly beneath such an object has been looked at.
`trace` is the expansion with a mark on each object of the result that tells whether it
stands strictly beneath a cut; without the marks it is `expand`.

## Main results

* `trace_plain`: without its marks, the trace of a value is its expansion.
-/

namespace ApiWorkbench

namespace Reference

/-- Where an object of an expanded value stands. -/
inductive Place where
  /-- not strictly beneath an object that was left because its pointer was
  being expanded -/
  | outside
  /-- strictly beneath such an object -/
  | beneath
deriving DecidableEq, Repr

/-- An expanded value whose objects are marked with the place where they stand. -/
abbrev TracedValue : Type := Tree Place

/-- What becomes of a pointer. -/
inductive TracedTarget where
  | held
  | missing
  | found (v : TracedValue)

/-- A target without the marks of what was found. -/
def TracedTarget.plain : TracedTarget → Target
  | .held => .held
  | .missing => .missing
  | .found v => .found v.plain

/-- What `follow` makes of the pointer of an object. -/
def tracedTarget (follow : String → Except Fault TracedTarget) (members : Members) :
    Except Fault TracedTarget :=
  match Members.get? "$ref" members with
  | some (.str pointer) => follow pointer
  | _ => pure .missing

mutual

/-- A value with every pointer replaced by what `follow` makes of it; what is beneath a
held pointer is marked. -/
def traceWith (follow : String → Except Fault TracedTarget) :
    Value → Except Fault TracedValue
  | .scalar s => pure (.scalar s)
  | .list xs => do pure (.list (← traceItems follow xs))
  | .pair a b =>
      pure (.pair (a.mapMarks fun _ => .outside) (b.mapMarks fun _ => .outside))
  | .set names => pure (.set names)
  | .object ms => do
    match ← tracedTarget follow ms with
    | .held => pure (.marked .outside (Tree.mapMemberMarks (fun _ => .beneath) ms))
    | .missing => do pure (.marked .outside (← traceMembers follow ms))
    | .found (.marked place base) => do
      pure (.marked place (Members.putAll base (← traceSiblings follow ms)))
    | .found v => pure v

/-- Traces list items. -/
def traceItems (follow : String → Except Fault TracedTarget) :
    List Value → Except Fault (List TracedValue)
  | [] => pure []
  | v :: rest => do
    let w ← traceWith follow v
    pure (w :: (← traceItems follow rest))

/-- Traces the values of members. -/
def traceMembers (follow : String → Except Fault TracedTarget) :
    List (Scalar × Value) → Except Fault (List (Scalar × TracedValue))
  | [] => pure []
  | (k, v) :: rest => do
    let w ← traceWith follow v
    pure ((k, w) :: (← traceMembers follow rest))

/-- Traces the values of the members beside a pointer, which is left out. -/
def traceSiblings (follow : String → Except Fault TracedTarget) :
    List (Scalar × Value) → Except Fault (List (Scalar × TracedValue))
  | [] => pure []
  | (k, v) :: rest =>
    if k.same "$ref" then traceSiblings follow rest
    else do
      let w ← traceWith follow v
      pure ((k, w) :: (← traceSiblings follow rest))

end

/-- What becomes of a pointer that is followed only if it is among `free`; `inner`
traces what it leads to. -/
def followTraced (root : Value) (inner : List String → Value → Except Fault TracedValue)
    (free : List String) (pointer : String) : Except Fault TracedTarget := do
  if free.contains pointer then
    match ← followOnce root pointer with
    | .found next => do
      pure (.found (← inner (free.filter (· != pointer)) next))
    | .missing => pure .missing
    | .held => pure .held
  else pure .held

/-- A value traced to any depth, following only pointers among `free`. -/
def traceFrom (root : Value) :
    (depth : Nat) → (free : List String) → Value → Except Fault TracedValue
  | 0, _, v => traceWith (fun _ => pure .held) v
  | depth + 1, free, v => traceWith (followTraced root (traceFrom root depth) free) v

/-- A value with every pointer into `root` expanded, and what stands beneath a cut
marked. -/
def trace (node root : Value) : Except Fault TracedValue :=
  let free := (pointers node ++ pointers root).eraseDups
  traceFrom root free.length free node

/-! ## Without the marks -/

section

variable {follow : String → Except Fault TracedTarget}
  {follow' : String → Except Fault Target}

private theorem tracedTarget_plain
    (h : ∀ p, TracedTarget.plain <$> follow p = follow' p) (ms : Members) :
    TracedTarget.plain <$> tracedTarget follow ms = target follow' ms := by
  unfold tracedTarget target
  cases Members.get? "$ref" ms with
  | none => rfl
  | some v =>
      cases v with
      | scalar s =>
          cases s with
          | str pointer => exact h pointer
          | _ => rfl
      | _ => rfl

mutual

theorem traceWith_plain (h : ∀ p, TracedTarget.plain <$> follow p = follow' p) :
    ∀ v : Value, Tree.plain <$> traceWith follow v = expandWith follow' v
  | .scalar s => rfl
  | .list xs => by
      rw [traceWith, expandWith, ← traceItems_plain h xs]
      cases traceItems follow xs <;> rfl
  | .pair a b => by
      have ha := Tree.mapMarks_mapMarks_unit (fun _ => Place.outside) a
      have hb := Tree.mapMarks_mapMarks_unit (fun _ => Place.outside) b
      rw [Tree.plain] at ha hb
      rw [traceWith, expandWith]
      show Except.ok (Tree.pair _ _) = _
      rw [ha, hb, pure_eq_ok]
  | .set names => rfl
  | .object ms => by
      rw [traceWith, expandWith, ← tracedTarget_plain h ms, ← traceMembers_plain h
        ms, ← traceSiblings_plain h ms]
      cases tracedTarget follow ms with
      | error fault => rfl
      | ok target =>
          cases target with
          | held =>
              show Except.ok (Tree.marked _ _) = _
              rw [Tree.mapMemberMarks_mapMemberMarks_unit]
              rfl
          | missing => cases traceMembers follow ms <;> rfl
          | found v =>
              cases v with
              | marked place base =>
                  cases traceSiblings follow ms with
                  | error fault => rfl
                  | ok siblings =>
                      show Except.ok (Tree.marked _ _) = _
                      rw [Members.mapMemberMarks_putAll]
                      rfl
              | _ => rfl

theorem traceItems_plain (h : ∀ p, TracedTarget.plain <$> follow p = follow' p) :
    ∀ xs : List Value, Tree.mapItemMarks (fun _ => ()) <$> traceItems follow xs =
      expandItems follow' xs
  | [] => rfl
  | v :: rest => by
      rw [traceItems, expandItems, ← traceWith_plain h v, ← traceItems_plain h rest]
      cases traceWith follow v with
      | error fault => rfl
      | ok w => cases traceItems follow rest <;> rfl

theorem traceMembers_plain (h : ∀ p, TracedTarget.plain <$> follow p = follow' p) :
    ∀ ms : Members, Tree.mapMemberMarks (fun _ => ()) <$> traceMembers follow ms =
      expandMembers follow' ms
  | [] => rfl
  | (k, v) :: rest => by
      rw [traceMembers, expandMembers, ← traceWith_plain h
        v, ← traceMembers_plain h rest]
      cases traceWith follow v with
      | error fault => rfl
      | ok w => cases traceMembers follow rest <;> rfl

theorem traceSiblings_plain (h : ∀ p, TracedTarget.plain <$> follow p = follow' p) :
    ∀ ms : Members, Tree.mapMemberMarks (fun _ => ()) <$> traceSiblings follow ms =
      expandSiblings follow' ms
  | [] => rfl
  | (k, v) :: rest => by
      rw [traceSiblings, expandSiblings]
      split
      · exact traceSiblings_plain h rest
      · rw [← traceWith_plain h v, ← traceSiblings_plain h rest]
        cases traceWith follow v with
        | error fault => rfl
        | ok w => cases traceSiblings follow rest <;> rfl

end

end

theorem traceFrom_plain (root : Value) (depth : Nat) (free : List String) (v : Value) :
    Tree.plain <$> traceFrom root depth free v = expandFrom root depth free v := by
  induction depth generalizing free v with
  | zero => exact traceWith_plain (fun _ => rfl) v
  | succ depth ih =>
      refine traceWith_plain (fun pointer => ?_) v
      unfold followTraced
      split
      · cases followOnce root pointer with
        | error fault => rfl
        | ok target =>
            cases target with
            | found next =>
                have hnext := ih (free.filter (· != pointer)) next
                cases htrace :
                    traceFrom root depth (free.filter (· != pointer)) next with
                | error fault =>
                    rw [htrace] at hnext
                    simp only [ok_bind, htrace, ← hnext]
                    rfl
                | ok w =>
                    rw [htrace] at hnext
                    simp only [ok_bind, htrace, ← hnext]
                    rfl
            | _ => rfl
      · rfl

/-- Without its marks, the trace of a value is its expansion. -/
theorem trace_plain (node root : Value) :
    Tree.plain <$> trace node root = expand node root :=
  traceFrom_plain root _ _ node

end Reference

end ApiWorkbench
