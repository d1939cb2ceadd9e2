import ApiWorkbench.Proofs.Document.EditedPlaces
import ApiWorkbench.Proofs.TextParts

/-!
# Positions in converted schemas

A schema holds other schemas under some of its members, and a position in it is a path
of steps from one to the next. Converting a schema converts what is at each of its
positions, in place, as long as no schema on the way is a reference, which says nothing
but where it points. Of the members that hold schemas the conversion keeps the items,
the properties, the additional properties and the parts of `allOf`; it drops those that
the legacy format does not have.

References are rewritten on the way, so none of a converted schema points into the
definitions any more.

## Main results

* `schemaAt_convertSchema`: what is at a position of a converted schema.
* `convertSchema_relocated`: no reference of a converted schema mentions the
  definitions.
-/

namespace ApiWorkbench.Swagger

/-- A step from a schema to one that it holds. -/
inductive SchemaStep where
  | items
  | additionalProperties
  | negated
  | property (name : Scalar)
  | part (index : Nat)
  | choice (index : Nat)
  | alternative (index : Nat)

namespace SchemaStep

/-- The member of a schema that a step goes into. -/
def keyword : SchemaStep → String
  | items => "items"
  | additionalProperties => "additionalProperties"
  | negated => "not"
  | property _ => "properties"
  | part _ => "allOf"
  | choice _ => "oneOf"
  | alternative _ => "anyOf"

/-- Where a step goes within that member. -/
def within : SchemaStep → Value → Option Value
  | property name, .object properties => Members.get? name properties
  | property _, _ => none
  | part index, .list parts | choice index, .list parts
  | alternative index, .list parts => parts[index]?
  | part _, _ | choice _, _ | alternative _, _ => none
  | _, v => some v

/-- What a step leads to from the members of a schema. -/
def child (step : SchemaStep) (schema : Members) : Option Value :=
  (Members.get? step.keyword schema).bind step.within

end SchemaStep

/-- What is at a position of a schema. -/
def schemaAt : List SchemaStep → Value → Option Value
  | [], schema => some schema
  | step :: rest, .object schema => (step.child schema).bind (schemaAt rest)
  | _ :: _, _ => none

/-- No schema on the way to a position is a reference. -/
def NoReferenceAbove (position : List SchemaStep) (schema : Value) : Prop :=
  ∀ before step after, position = before ++ step :: after →
    ∀ ms, schemaAt before schema = some (.object ms) →
    ∀ pointer, Members.get? "$ref" ms ≠ some (.str pointer)

theorem NoReferenceAbove.tail {step : SchemaStep} {rest : List SchemaStep}
    {ms : Members} {v : Value} (h : NoReferenceAbove (step :: rest) (.object ms))
    (hv : step.child ms = some v) : NoReferenceAbove rest v :=
  fun before next after hrest inner hinner =>
    h (step :: before) next after (by rw [hrest, List.cons_append]) inner
      (by rwa [schemaAt, hv])

theorem noReferenceAbove_nil (schema : Value) : NoReferenceAbove [] schema :=
  fun before step after h => by simp at h

theorem NoReferenceAbove.cons {step : SchemaStep} {rest : List SchemaStep}
    {ms : Members} (href : ∀ pointer, Members.get? "$ref" ms ≠ some (.str pointer))
    (hrest : ∀ v, step.child ms = some v → NoReferenceAbove rest v) :
    NoReferenceAbove (step :: rest) (.object ms) := by
  intro before next after hposition inner hinner
  cases before with
  | nil =>
      obtain rfl := (Tree.marked.inj (Option.some.inj hinner)).2
      exact href
  | cons first before =>
      obtain ⟨rfl, hbelow⟩ := List.cons.inj hposition
      obtain ⟨v, hv, hat⟩ := Option.bind_eq_some_iff.mp hinner
      exact hrest v hv before next after hbelow inner hat

/-! ## What conversion makes of each member -/

/-- What conversion makes of one member of a schema. -/
def nestedMember (name : Scalar) (v : Value) : Except Fault (Option Value) :=
  if name.same "items" then unlessBlank v (convertSchema v)
  else if name.same "properties" then unlessBlank v (convertProperties v)
  else if name.same "allOf" then unlessBlank v (convertParts v)
  else if name.same "additionalProperties" then
    match v with
    | .bool b => pure (some (.bool b))
    | v => unlessBlank v (convertSchema v)
  else pure none

theorem convertNested_eq (name : Scalar) (v : Value) (rest : Members) :
    convertNested ((name, v) :: rest) = (do
      let made ← nestedMember name v
      let others ← convertNested rest
      pure ((made.map fun w => (name, w)).toList ++ others)) := by
  rw [convertNested.eq_def]
  unfold nestedMember
  dsimp only
  -- whatever is made of the member, the rest is the same
  split_ifs
  · exact bind_congr fun made => by cases made <;> rfl
  · exact bind_congr fun made => by cases made <;> rfl
  · exact bind_congr fun made => by cases made <;> rfl
  · cases v with
    | scalar s => cases s <;> exact bind_congr fun made => by cases made <;> rfl
    | _ => exact bind_congr fun made => by cases made <;> rfl
  · exact bind_congr fun made => by cases made <;> rfl

private theorem convertNested_cons {name : Scalar} {v : Value}
    {rest converted : Members} (h : convertNested ((name, v) :: rest) = .ok converted) :
    ∃ made others, nestedMember name v = .ok made ∧ convertNested rest = .ok others ∧
      converted = (made.map fun w => (name, w)).toList ++ others := by
  rw [convertNested_eq] at h
  obtain ⟨made, hmade, h⟩ := bind_eq_ok.mp h
  obtain ⟨others, hothers, h⟩ := bind_eq_ok.mp h
  exact ⟨made, others, hmade, hothers, (Except.ok.inj h).symm⟩

/-- A member that is made something of is found under its name afterwards. -/
private theorem get?_convertNested {ms converted : Members}
    (h : convertNested ms = .ok converted) {name : String} {v : Value}
    (hv : Members.get? name ms = some v) :
    ∃ made, nestedMember name v = .ok made ∧ ∀ w, made = some w →
      Members.get? name converted = some w := by
  induction ms generalizing converted with
  | nil => simp at hv
  | cons e rest ih =>
      obtain ⟨k, u⟩ := e
      obtain ⟨made, others, hmade, hothers, rfl⟩ := convertNested_cons h
      rw [Members.get?_cons] at hv
      split at hv
      · rename_i hk
        obtain rfl := Scalar.same_str_iff.mp hk
        obtain rfl := Option.some.inj hv
        refine ⟨made, hmade, ?_⟩
        rintro w rfl
        simp [Members.get?_cons]
      · rename_i hk
        obtain ⟨made', hmade', hget⟩ := ih hothers hv
        refine ⟨made', hmade', fun w hw => ?_⟩
        cases made with
        | none => exact hget w hw
        | some other => simpa [Members.get?_cons, hk] using hget w hw

/-- What is found under a name was made of a member of that name. -/
private theorem made_of_get?_convertNested {ms converted : Members}
    (h : convertNested ms = .ok converted) {name : String} {w : Value}
    (hw : Members.get? name converted = some w) :
    ∃ v, nestedMember name v = .ok (some w) := by
  induction ms generalizing converted with
  | nil =>
      obtain rfl := Except.ok.inj h
      simp at hw
  | cons e rest ih =>
      obtain ⟨k, u⟩ := e
      obtain ⟨made, others, hmade, hothers, rfl⟩ := convertNested_cons h
      cases made with
      | none => exact ih hothers hw
      | some other =>
          simp only [Option.map_some, Option.toList_some, List.singleton_append,
            Members.get?_cons] at hw
          split at hw
          · rename_i hk
            obtain rfl := Scalar.same_str_iff.mp hk
            obtain rfl := Option.some.inj hw
            exact ⟨u, hmade⟩
          · exact ih hothers hw

private theorem unlessBlank_eq_ok {v : Value} {convert : Except Fault Value}
    {w : Value} :
    unlessBlank v convert = .ok (some w) ↔ v.isBlank = false ∧ convert = .ok w := by
  unfold unlessBlank
  cases v.isBlank with
  | true => simp
  | false => cases convert <;> simp

/-- The members of an object of schemas keep their names, and each of them is
converted. -/
theorem convertMembers_iff {ms ns : Members} :
    convertMembers ms = .ok ns ↔
      Members.Aligned (fun _ v w => convertSchema v = .ok w) ms ns := by
  induction ms generalizing ns with
  | nil => simp [convertMembers, Members.Aligned, eq_comm]
  | cons e rest ih =>
      obtain ⟨k, v⟩ := e
      rw [convertMembers, bind_eq_ok]
      constructor
      · rintro ⟨w, hw, h⟩
        obtain ⟨others, hothers, h⟩ := bind_eq_ok.mp h
        obtain rfl := Except.ok.inj h
        exact .cons ⟨rfl, hw⟩ (ih.mp hothers)
      · intro h
        cases h with
        | @cons _ e' _ others he hothers =>
            obtain ⟨k', w⟩ := e'
            obtain ⟨rfl, hw⟩ := he
            exact ⟨w, hw, by rw [ih.mpr hothers]; rfl⟩

theorem convertItems_eq (xs : List Value) :
    convertItems xs = xs.mapM convertSchema := by
  induction xs with
  | nil => rfl
  | cons v rest ih => rw [convertItems, List.mapM_cons, ih]

/-- Converted parts are a list of converted schemas. -/
private theorem list_of_convertParts {v u : Value} (h : convertParts v = .ok u) :
    ∃ parts, u = .list parts ∧ ∀ w ∈ parts, ∃ source, convertSchema source = .ok w := by
  rw [convertParts.eq_def] at h
  split at h
  · obtain ⟨parts, hparts, h⟩ := bind_eq_ok.mp h
    rw [convertItems_eq] at hparts
    refine ⟨parts, (Except.ok.inj h).symm, fun w hw => ?_⟩
    obtain ⟨source, -, hsource⟩ := exists_of_mem_mapM hparts hw
    exact ⟨source, hsource⟩
  · obtain ⟨first, hfirst, h⟩ := bind_eq_ok.mp h
    obtain ⟨second, hsecond, h⟩ := bind_eq_ok.mp h
    refine ⟨_, (Except.ok.inj h).symm, fun w hw => ?_⟩
    obtain rfl | rfl : w = first ∨ w = second := by simpa using hw
    · exact ⟨_, hfirst⟩
    · exact ⟨_, hsecond⟩
  · obtain ⟨items, -, h⟩ := bind_eq_ok.mp h
    refine ⟨_, (Except.ok.inj h).symm, fun w hw => ⟨.null, ?_⟩⟩
    obtain ⟨item, -, rfl⟩ := List.mem_map.mp hw
    rfl

/-- Items of related lists in the same place are related. -/
private theorem forall₂_getElem? {α β : Type} {R : α → β → Prop} {xs : List α}
    {ys : List β} (h : List.Forall₂ R xs ys) {i : Nat} {x : α} (hx : xs[i]? = some x) :
    ∃ y, ys[i]? = some y ∧ R x y := by
  induction h generalizing i with
  | nil => simp at hx
  | cons hxy _ ih =>
      cases i with
      | zero =>
          obtain rfl := Option.some.inj hx
          exact ⟨_, rfl, hxy⟩
      | succ i => exact ih hx

section

variable {ms converted joined : Members}

/-- A joined schema has the converted members in their places. -/
private theorem get?_joinSchema (hjoined : joinSchema ms converted = .object joined)
    {name : String} {w : Value} (hname : name ∈ nestedMembers)
    (hw : Members.get? name converted = some w) (hnull : w.isNull = false) :
    Members.get? name joined = some w := by
  refine Document.get?_recordOf _ ?_ hjoined
    (List.mem_append_right _ (List.mem_map.mpr ⟨name, hname, ?_⟩)) hnull
  · have hfst : ∀ (found : String → Value) (names : List String),
        (names.map fun key => (key, found key)).map (·.1) =
            names := fun found names => by
          simp [Function.comp_def]
    rw [List.map_append, hfst, hfst]
    decide
  · rw [show Members.get? (.str name) converted = some w from hw, Option.getD_some]

/-- A joined schema has constraints and converted members, and nothing else. -/
private theorem of_get?_joinSchema (hjoined : joinSchema ms converted = .object joined)
    {name : String} {w : Value} (hw : Members.get? name joined = some w) :
    name ∈ sharedConstraints ∨ name ∈ nestedMembers ∧
      Members.get? name converted = some w := by
  rcases List.mem_append.mp (Document.mem_of_get?_recordOf hjoined hw) with hmem | hmem
  · obtain ⟨key, hkey, heq⟩ := List.mem_map.mp hmem
    obtain rfl := (Prod.mk.inj heq).1
    exact .inl hkey
  · obtain ⟨key, hkey, heq⟩ := List.mem_map.mp hmem
    obtain ⟨rfl, hvalue⟩ := Prod.mk.inj heq
    refine .inr ⟨hkey, ?_⟩
    cases hget : Members.get? (.str key) converted with
    | none =>
        exact absurd (by simpa [hget] using hvalue.symm)
          (Document.notNull_of_get?_recordOf hjoined hw)
    | some u => simpa [hget] using hvalue

/-- A converted schema is empty, a reference, or joined of its constraints and
what it holds. -/
private theorem convertSchema_cases {v w : Value} (h : convertSchema v = .ok w) :
    w = .emptyObject ∨ (∃ pointer, w = schemaReference pointer) ∨
      ∃ ms converted, convertNested ms = .ok converted ∧
        w = joinSchema ms converted := by
  rw [convertSchema.eq_def] at h
  split at h
  · exact .inl (Except.ok.inj h).symm
  · split at h
    · exact .inr (.inl ⟨_, (Except.ok.inj h).symm⟩)
    · obtain ⟨converted, hconverted, h⟩ := bind_eq_ok.mp h
      exact .inr (.inr ⟨_, converted, hconverted, (Except.ok.inj h).symm⟩)
  · exact .inl (Except.ok.inj h).symm

/-- What is converted is an object in the end. -/
theorem object_of_convertSchema {v w : Value} (h : convertSchema v = .ok w) :
    ∃ ns, w = .object ns := by
  rcases convertSchema_cases h with rfl | ⟨pointer, rfl⟩ | ⟨ms, converted, -, rfl⟩
  · exact ⟨_, rfl⟩
  · exact ⟨_, rfl⟩
  · exact ⟨_, rfl⟩

private theorem convertSchema_join (hne : ms ≠ [])
    (href : ∀ pointer, Members.get? "$ref" ms ≠ some (.str pointer)) {w : Value}
    (h : convertSchema (.object ms) = .ok w) :
    ∃ converted, convertNested ms = .ok converted ∧ w = joinSchema ms converted := by
  obtain ⟨e, rest, rfl⟩ := List.exists_cons_of_ne_nil hne
  rw [convertSchema.eq_def] at h
  dsimp only at h
  split at h
  · rename_i pointer hget
    exact absurd hget (href pointer)
  · obtain ⟨converted, hconverted, h⟩ := bind_eq_ok.mp h
    exact ⟨converted, hconverted, (Except.ok.inj h).symm⟩

/-- A schema at a step that conversion keeps is converted in its place. -/
private theorem child_joinSchema (hconverted : convertNested ms = .ok converted)
    (hjoined : joinSchema ms converted = .object joined) {step : SchemaStep}
    (hstep : step.keyword ∈ nestedMembers)
    {inner : Members} (hne : inner ≠ [])
    (hchild : step.child ms = some (.object inner)) :
    ∃ w, step.child joined = some w ∧ convertSchema (.object inner) = .ok w := by
  obtain ⟨v, hv, hwithin⟩ := Option.bind_eq_some_iff.mp hchild
  obtain ⟨made, hmade, hget⟩ := get?_convertNested hconverted hv
  have hplace : ∀ u, made = some u → u.isNull = false →
      Members.get? step.keyword joined = some u :=
    fun u hu hnull => get?_joinSchema hjoined hstep (hget u hu) hnull
  have hinner : (Value.object inner).isBlank = false := by
    simpa [Tree.isBlank] using hne
  -- The member that the step goes into is not blank, so something is made of it.
  have hmake : ∀ convert : Except Fault Value, v.isBlank = false →
      nestedMember step.keyword v = unlessBlank v convert →
      ∃ u, made = some u ∧ convert = .ok u := by
    intro convert hblank hmember
    rw [hmember, unlessBlank, hblank, if_neg (by simp)] at hmade
    obtain ⟨u, hu, hmade⟩ := bind_eq_ok.mp hmade
    exact ⟨u, (Except.ok.inj hmade).symm, hu⟩
  cases step with
  | items =>
      obtain rfl := Option.some.inj hwithin
      obtain ⟨u, rfl, hu⟩ := hmake _ hinner rfl
      obtain ⟨ns, rfl⟩ := object_of_convertSchema hu
      exact ⟨_, Option.bind_eq_some_iff.mpr ⟨_, hplace _ rfl rfl, rfl⟩, hu⟩
  | additionalProperties =>
      obtain rfl := Option.some.inj hwithin
      obtain ⟨u, rfl, hu⟩ := hmake _ hinner rfl
      obtain ⟨ns, rfl⟩ := object_of_convertSchema hu
      exact ⟨_, Option.bind_eq_some_iff.mpr ⟨_, hplace _ rfl rfl, rfl⟩, hu⟩
  | property name =>
      cases v with
      | marked mark properties =>
          have hblank : (Value.object properties).isBlank = false := by
            cases properties with
            | nil => simp [SchemaStep.within] at hwithin
            | cons => rfl
          obtain ⟨u, rfl, hu⟩ := hmake _ hblank rfl
          obtain ⟨converted, hproperties, hu⟩ := bind_eq_ok.mp hu
          obtain rfl := Except.ok.inj hu
          obtain ⟨-, w, -, hw, hconvert⟩ :=
            (convertMembers_iff.mp hproperties).get?_some hwithin
          exact ⟨w, Option.bind_eq_some_iff.mpr ⟨_, hplace _ rfl rfl, hw⟩, hconvert⟩
      | _ => simp [SchemaStep.within] at hwithin
  | part index =>
      cases v with
      | list parts =>
          have hblank : (Tree.list parts : Value).isBlank = false := by
            cases parts with
            | nil => simp [SchemaStep.within] at hwithin
            | cons => rfl
          obtain ⟨u, rfl, hu⟩ := hmake _ hblank rfl
          obtain ⟨converted, hparts, hu⟩ := bind_eq_ok.mp hu
          obtain rfl := Except.ok.inj hu
          rw [convertItems_eq, mapM_eq_ok_iff] at hparts
          obtain ⟨w, hw, hconvert⟩ := forall₂_getElem? hparts hwithin
          exact ⟨w, Option.bind_eq_some_iff.mpr ⟨_, hplace _ rfl rfl, hw⟩, hconvert⟩
      | _ => simp [SchemaStep.within] at hwithin
  | _ => simp [SchemaStep.keyword, nestedMembers] at hstep

end

/-! ## What is at a position -/

/-- Converting a schema converts what is at each of its positions, if the steps are
ones that conversion keeps, there is an object with members, and no schema on the way
is a reference. -/
theorem schemaAt_convertSchema {position : List SchemaStep} {schema converted : Value}
    {node : Members} (h : convertSchema schema = .ok converted)
    (hsteps : ∀ step ∈ position, step.keyword ∈ nestedMembers)
    (hnode : schemaAt position schema = some (.object node)) (hne : node ≠ [])
    (habove : NoReferenceAbove position schema) :
    ∃ w, schemaAt position converted = some w ∧
      convertSchema (.object node) = .ok w := by
  induction position generalizing schema converted with
  | nil =>
      obtain rfl := Option.some.inj hnode
      exact ⟨converted, rfl, h⟩
  | cons step rest ih =>
      rw [List.forall_mem_cons] at hsteps
      cases schema with
      | marked mark ms =>
          obtain ⟨v, hchild, hrest⟩ := Option.bind_eq_some_iff.mp hnode
          have hms : ms ≠ [] := by
            rintro rfl
            simp [SchemaStep.child] at hchild
          -- The schema that the step leads to has members, since it is the node or has
          -- a step of its own.
          obtain ⟨inner, rfl, hinner⟩ : ∃ inner, v = .object inner ∧ inner ≠ [] := by
            cases rest with
            | nil => exact ⟨node, Option.some.inj hrest, hne⟩
            | cons next rest =>
                cases v with
                | marked mark inner =>
                    refine ⟨inner, rfl, ?_⟩
                    rintro rfl
                    simp [schemaAt, SchemaStep.child] at hrest
                | _ => simp [schemaAt] at hrest
          obtain ⟨made, hmade, rfl⟩ :=
            convertSchema_join hms (habove [] step rest rfl ms rfl) h
          obtain ⟨w, hw, hconvert⟩ := child_joinSchema hmade rfl hsteps.1 hinner hchild
          obtain ⟨u, hu, hfinal⟩ := ih hconvert hsteps.2 hrest (habove.tail hchild)
          exact ⟨u, Option.bind_eq_some_iff.mpr ⟨w, hw, hu⟩, hfinal⟩
      | _ => simp [schemaAt] at hnode

/-! ## Where references point -/

/-- What references into the definitions begin with. -/
def definitionsPrefix : String := "#/definitions/"

/-- What references into the component schemas begin with. -/
def schemasPrefix : String := "#/components/schemas/"

/-- No reference at a position of a schema mentions the definitions. -/
def Relocated (schema : Value) : Prop :=
  ∀ position ms pointer, schemaAt position schema = some (.object ms) →
    Members.get? "$ref" ms = some (.str pointer) →
    ¬ definitionsPrefix.toList <:+: pointer.toList

theorem relocated_of_not_object {schema : Value} (h : schema.isObject = false) :
    Relocated schema := by
  intro position ms pointer hat
  cases schema with
  | marked => simp [Tree.isObject] at h
  | _ => cases position <;> simp [schemaAt] at hat

/-- A schema is relocated if what it holds is, and if it is no reference into the
definitions itself. -/
theorem relocated_object {ms : Members}
    (hchild : ∀ step v, SchemaStep.child step ms = some v → Relocated v)
    (href : ∀ pointer, Members.get? "$ref" ms = some (.str pointer) →
      ¬ definitionsPrefix.toList <:+: pointer.toList) : Relocated (.object ms) := by
  intro position inner pointer hat hpointer
  cases position with
  | nil =>
      obtain rfl := (Tree.marked.inj (Option.some.inj hat)).2
      exact href pointer hpointer
  | cons step rest =>
      obtain ⟨v, hv, hrest⟩ := Option.bind_eq_some_iff.mp hat
      exact hchild step v hv rest inner pointer hrest hpointer

/-- A pointer does not mention the definitions after it was rewritten. -/
theorem not_mentions_replaceAll (pointer : String) :
    ¬ definitionsPrefix.toList <:+:
      (Text.replaceAll definitionsPrefix schemasPrefix pointer).toList :=
  Text.not_isInfix_replaceAll (rfl : definitionsPrefix.toList = '#' :: _)
    rfl (by decide) (by decide) (by decide) (by decide) pointer

/-- What a step leads to in a joined schema was converted, or is no schema. -/
private theorem converted_of_child_joinSchema {ms converted joined : Members}
    (hconverted : convertNested ms = .ok converted)
    (hjoined : joinSchema ms converted = .object joined)
    {step : SchemaStep} {w : Value} (hchild : step.child joined = some w) :
    w.isObject = false ∨ ∃ v, convertSchema v = .ok w := by
  obtain ⟨u, hu, hwithin⟩ := Option.bind_eq_some_iff.mp hchild
  rcases of_get?_joinSchema hjoined hu with hshared | ⟨hnested, hget⟩
  · cases step <;> simp [SchemaStep.keyword, sharedConstraints] at hshared
  obtain ⟨v, hmade⟩ := made_of_get?_convertNested hconverted hget
  cases step with
  | items =>
      obtain rfl := Option.some.inj hwithin
      exact .inr ⟨v, (unlessBlank_eq_ok.mp hmade).2⟩
  | additionalProperties =>
      obtain rfl := Option.some.inj hwithin
      have hcases : (∃ b, v = .bool b) ∨
          nestedMember "additionalProperties" v = unlessBlank v (convertSchema v) := by
        cases v with
        | scalar s =>
            cases s with
            | bool b => exact .inl ⟨b, rfl⟩
            | _ => exact .inr rfl
        | _ => exact .inr rfl
      rcases hcases with ⟨b, rfl⟩ | heq
      · obtain rfl := Option.some.inj (Except.ok.inj hmade)
        exact .inl rfl
      · exact .inr ⟨v, (unlessBlank_eq_ok.mp (heq.symm.trans hmade)).2⟩
  | property name =>
      have hproperties : convertProperties v = .ok u := (unlessBlank_eq_ok.mp hmade).2
      cases v with
      | marked mark properties =>
          obtain ⟨made, hmembers, heq⟩ := bind_eq_ok.mp hproperties
          obtain rfl := Except.ok.inj heq
          obtain ⟨k, -, hmem⟩ := Members.mem_of_get? hwithin
          obtain ⟨source, -, hsource⟩ := (convertMembers_iff.mp hmembers).mem_right hmem
          exact .inr ⟨source, hsource⟩
      | _ => simp [convertProperties] at hproperties
  | part index =>
      have hparts : convertParts v = .ok u := (unlessBlank_eq_ok.mp hmade).2
      obtain ⟨parts, rfl, hall⟩ := list_of_convertParts hparts
      exact .inr (hall w (List.mem_of_getElem? hwithin))
  | _ => simp [SchemaStep.keyword, nestedMembers] at hnested

/-- What a step leads to in a converted schema was converted, or is no schema. -/
private theorem converted_of_child {v : Value} {ns : Members}
    (h : convertSchema v = .ok (.object ns)) {step : SchemaStep} {w : Value}
    (hchild : step.child ns = some w) :
    w.isObject = false ∨ ∃ source, convertSchema source = .ok w := by
  rcases convertSchema_cases h with hempty | ⟨pointer, href⟩
    | ⟨ms, converted, hconverted, hjoined⟩
  · obtain rfl := (Tree.marked.inj hempty).2
    simp [SchemaStep.child] at hchild
  · obtain rfl := (Tree.marked.inj href).2
    cases step <;> simp [SchemaStep.child, SchemaStep.keyword, Members.get?_cons]
      at hchild
  · exact converted_of_child_joinSchema hconverted hjoined.symm hchild

/-- A reference among converted schemas was rewritten. -/
private theorem not_mentions_of_convertSchema {v : Value}
    {ns : Members} (h : convertSchema v = .ok (.object ns)) {pointer : String}
    (hpointer : Members.get? "$ref" ns = some (.str pointer)) :
    ¬ definitionsPrefix.toList <:+: pointer.toList := by
  rcases convertSchema_cases h with hempty | ⟨source, href⟩
    | ⟨ms, converted, -, hjoined⟩
  · obtain rfl := (Tree.marked.inj hempty).2
    simp at hpointer
  · obtain rfl := (Tree.marked.inj href).2
    obtain rfl : Text.replaceAll definitionsPrefix schemasPrefix source = pointer := by
      simpa [definitionsPrefix, schemasPrefix, Members.get?_cons] using hpointer
    exact not_mentions_replaceAll source
  · rcases of_get?_joinSchema hjoined.symm hpointer with hmem | ⟨hmem, -⟩
    · simp [sharedConstraints] at hmem
    · simp [nestedMembers] at hmem

/-- No reference in a converted schema mentions the definitions. -/
theorem convertSchema_relocated {v w : Value} (h : convertSchema v = .ok w) :
    Relocated w := by
  intro position
  induction position generalizing v w with
  | nil =>
      intro ms pointer hat hpointer
      obtain rfl := Option.some.inj hat
      exact not_mentions_of_convertSchema h hpointer
  | cons step rest ih =>
      intro ms pointer hat hpointer
      obtain ⟨ns, rfl⟩ := object_of_convertSchema h
      obtain ⟨u, hchild, hrest⟩ := Option.bind_eq_some_iff.mp hat
      rcases converted_of_child h hchild with hno | ⟨source, hsource⟩
      · exact relocated_of_not_object hno rest ms pointer hrest hpointer
      · exact ih hsource ms pointer hrest hpointer

end ApiWorkbench.Swagger
