import ApiWorkbench.Document.Operation
import ApiWorkbench.Proofs.Members

/-!
# The places of operations

Operations stand in path items, and through their callbacks operations hold maps of
paths again. `ItemWithin` says which path items a map of paths holds at any callback
depth, and `Throughout` that all of them and all of their operations have some
properties. `callback_induction` is the induction that goes with it: what holds of a map
of paths if it holds of the maps inside its callbacks, holds of every map of paths.

A `PathItemEdit` goes through these places, so what it does is said by what it does to
one operation and one path item.

## Main results

* `throughout_iff`: a property throughout a map of paths, by one level.
* `PathItemEdit.pathItems_throughout`: what one step of an edit brings about holds
  throughout the result.
* `PathItemEdit.pathItems_fixed`: an edit leaves alone what each of its steps leaves
  alone.
* `PathItemEdit.pathItems_succeeds_iff`: an edit comes to an end unless one of the
  operations stops it.
* `PathItemEdit.pathItems_undone`: an edit is undone by another one if each
  of its steps is.
-/

namespace ApiWorkbench.Document

/-! ## Places -/

/-- A map of paths has a path item among its entries. -/
def HoldsItem (paths item : Members) : Prop :=
  ∃ name, (name, Value.object item) ∈ paths

/-- A path item has an operation under a method. -/
def HoldsOperation (item op : Members) : Prop :=
  ∃ name, isMethod name = true ∧ (name, Value.object op) ∈ item

/-- An operation has a callback, whose entries are a map of paths again. -/
def HoldsCallback (op inner : Members) : Prop :=
  ∃ callbacks name, (Scalar.str "callbacks", Value.object callbacks) ∈ op ∧
    (name, Value.object inner) ∈ callbacks

/-- The path items of a map of paths at any callback depth. -/
inductive ItemWithin (paths : Members) : Members → Prop where
  | top {item : Members} : HoldsItem paths item → ItemWithin paths item
  | nested {item op inner item' : Members} :
      ItemWithin paths item → HoldsOperation item op → HoldsCallback op inner →
        HoldsItem inner item' →
      ItemWithin paths item'

/-- Every path item at any callback depth has one property, and each of its
operations another. -/
structure Throughout (onItem onOperation : Members → Prop) (paths : Members) :
    Prop where
  item : ∀ item, ItemWithin paths item → onItem item
  operation : ∀ item op, ItemWithin paths item → HoldsOperation item op → onOperation op

/-- No two methods have the same name. -/
theorem Method.name_injective : Function.Injective Method.name := by
  intro a b h
  cases a <;> cases b <;> first | rfl | exact absurd h (by decide)

/-- A method is named by a text. -/
theorem isMethod_iff {name : Scalar} :
    isMethod name = true ↔ ∃ method : Method, name = .str method.name := by
  simp only [isMethod, Method.all, List.any_eq_true, Scalar.same_str_iff]
  constructor
  · rintro ⟨method, _, rfl⟩
    exact ⟨method, rfl⟩
  · rintro ⟨method, rfl⟩
    exact ⟨method, by cases method <;> simp, rfl⟩

theorem isMethod_name (method : Method) : isMethod (.str method.name) = true :=
  isMethod_iff.mpr ⟨method, rfl⟩

/-- A path item deep inside a map of paths is one of the map, or lies in a callback of
an operation of one. -/
theorem itemWithin_iff {paths item' : Members} :
    ItemWithin paths item' ↔ HoldsItem paths item' ∨
      ∃ item op inner, HoldsItem paths item ∧ HoldsOperation item op ∧
        HoldsCallback op inner ∧
        ItemWithin inner item' := by
  constructor
  · intro h
    induction h with
    | top h => exact .inl h
    | @nested item op inner item' _ hop hinner hitem' ih =>
        right
        rcases ih with htop | ⟨item₀, op₀, inner₀, h₀, hop₀, hinner₀, hwithin⟩
        · exact ⟨item, op, inner, htop, hop, hinner, .top hitem'⟩
        · exact ⟨item₀, op₀, inner₀, h₀, hop₀, hinner₀,
            .nested hwithin hop hinner hitem'⟩
  · rintro (h | ⟨item, op, inner, hitem, hop, hinner, hwithin⟩)
    · exact .top h
    · induction hwithin with
      | top h => exact .nested (.top hitem) hop hinner h
      | nested _ hop' hinner' hitem' ih => exact .nested ih hop' hinner' hitem'

/-- A property throughout a map of paths, by one level: it holds of each path item and
each operation there, and throughout every callback of these operations. -/
theorem throughout_iff {onItem onOperation : Members → Prop} {paths : Members} :
    Throughout onItem onOperation paths ↔
      ∀ item, HoldsItem paths item → onItem item ∧
        ∀ op, HoldsOperation item op → onOperation op ∧
          ∀ inner, HoldsCallback op inner → Throughout onItem onOperation inner := by
  constructor
  · intro h item hitem
    refine ⟨h.item item (.top hitem), fun op hop =>
      ⟨h.operation item op (.top hitem) hop, ?_⟩⟩
    intro inner hinner
    have deeper : ∀ item', ItemWithin inner item' →
        ItemWithin paths item' := fun item' hwithin =>
      itemWithin_iff.mpr (.inr ⟨item, op, inner, hitem, hop, hinner, hwithin⟩)
    exact ⟨fun item' hwithin => h.item item' (deeper item' hwithin),
      fun item' op' hwithin => h.operation item' op' (deeper item' hwithin)⟩
  · intro h
    constructor
    · intro item' hwithin
      rcases itemWithin_iff.mp hwithin with htop
        | ⟨item, op, inner, hitem, hop, hinner, hdeep⟩
      · exact (h item' htop).1
      · exact (((h item hitem).2 op hop).2 inner hinner).item item' hdeep
    · intro item' op' hwithin hop'
      rcases itemWithin_iff.mp hwithin with htop
        | ⟨item, op, inner, hitem, hop, hinner, hdeep⟩
      · exact ((h item' htop).2 op' hop').1
      · exact (((h item hitem).2 op hop).2 inner hinner).operation item' op' hdeep hop'

/-- Properties that everything has are had throughout. -/
theorem throughout_of_forall {onItem onOperation : Members → Prop}
    (hitem : ∀ item, onItem item) (hoperation : ∀ op, onOperation op)
    (paths : Members) : Throughout onItem onOperation paths :=
  ⟨fun item _ => hitem item, fun _ op _ _ => hoperation op⟩

/-- Where there are no paths, every property holds throughout. -/
theorem throughout_nil {onItem onOperation : Members → Prop} :
    Throughout onItem onOperation [] :=
  throughout_iff.mpr fun _ ⟨_, hitem⟩ => absurd hitem List.not_mem_nil

/-! ## Induction on the depth of callbacks -/

/-- A part of an object is smaller than its members. -/
private theorem sizeOf_lt_of_entry {name : Scalar} {v : Value} {ms : Members}
    (h : (name, v) ∈ ms) :
    sizeOf v < sizeOf ms := by
  have hentry := List.sizeOf_lt_of_mem h
  simp only [Prod.mk.sizeOf_spec] at hentry
  omega

private theorem sizeOf_object (ms : Members) :
    sizeOf ms < sizeOf (Value.object ms) := by
  simp only [Tree.marked.sizeOf_spec]
  omega

/-- The map of paths inside a callback is smaller than the one around it. -/
private theorem sizeOf_callback_lt {paths item op inner : Members}
    (hitem : HoldsItem paths item) (hop : HoldsOperation item op)
    (hinner : HoldsCallback op inner) : sizeOf inner < sizeOf paths := by
  obtain ⟨name, hitem⟩ := hitem
  obtain ⟨method, -, hop⟩ := hop
  obtain ⟨callbacks, callback, hcallbacks, hinner⟩ := hinner
  have h₁ := sizeOf_lt_of_entry hitem
  have h₂ := sizeOf_lt_of_entry hop
  have h₃ := sizeOf_lt_of_entry hcallbacks
  have h₄ := sizeOf_lt_of_entry hinner
  have hsize := sizeOf_object item
  have hsize' := sizeOf_object op
  have hsize'' := sizeOf_object callbacks
  have hsize''' := sizeOf_object inner
  omega

/-- What holds of a map of paths if it holds inside the callbacks of its operations,
holds of every map of paths. -/
theorem callback_induction {motive : Members → Prop}
    (step : ∀ paths, (∀ item op inner, HoldsItem paths item → HoldsOperation item op →
      HoldsCallback op inner →
      motive inner) → motive paths) (paths : Members) : motive paths :=
  step paths fun _ _ inner hitem hop hinner =>
    have := sizeOf_callback_lt hitem hop hinner
    callback_induction step inner
termination_by sizeOf paths

namespace PathItemEdit

variable (edit : PathItemEdit)

/-! ## One level of an edit -/

/-- What an edit makes of a member of a path item. -/
def editMember (item : Members) (name : Scalar) : Value → Except Fault Value
  | .object op => do
    let changed ←
      if isMethod name then edit.operation item (← nested edit op) else pure op
    pure (.object changed)
  | v => pure v

/-- What an edit makes of a member of an operation before the operation
itself is changed. -/
def editPart (name : Scalar) (v : Value) : Except Fault Value :=
  if name.same "callbacks" then callbacks edit v else pure v

/-- What an edit makes of an entry in a map of callbacks. -/
def editCallback : Value → Except Fault Value
  | .object inner => do pure (.object (← pathItems edit inner))
  | v => pure v

/-- What an edit makes of an entry in a map of paths. -/
def editItem : Value → Except Fault Value
  | .object item => do pure (.object (edit.item (← operations edit item item)))
  | v => pure v

/-- A walk along members has a result exactly when each of its steps has one. -/
private theorem aligned_of_walk
    (walk : List (Scalar × Value) → Except Fault (List (Scalar × Value)))
    (step : Scalar → Value → Except Fault Value) (hnil : walk [] = .ok [])
    (hcons : ∀ name v rest, walk ((name, v) :: rest) = do
      let w ← step name v
      let others ← walk rest
      pure ((name, w) :: others))
    {ms ns : List (Scalar × Value)} :
    walk ms = .ok ns ↔ Members.Aligned (fun name v w => step name v = .ok w) ms ns := by
  induction ms generalizing ns with
  | nil => simp [hnil, Members.Aligned, eq_comm]
  | cons e rest ih =>
      obtain ⟨name, v⟩ := e
      rw [hcons, bind_eq_ok]
      constructor
      · rintro ⟨w, hw, hrest⟩
        obtain ⟨others, hothers, hcons⟩ := bind_eq_ok.mp hrest
        obtain rfl := Except.ok.inj hcons
        exact .cons ⟨rfl, hw⟩ (ih.mp hothers)
      · intro h
        cases h with
        | @cons _ e' _ others he hothers =>
            obtain ⟨name', w⟩ := e'
            obtain ⟨rfl, hw⟩ := he
            exact ⟨w, hw, bind_eq_ok.mpr ⟨others, ih.mpr hothers, rfl⟩⟩

theorem operations_iff {item ms ns : Members} :
    operations edit item ms = .ok ns ↔
      Members.Aligned (fun name v w => editMember edit item name v = .ok w) ms ns := by
  refine aligned_of_walk (operations edit item) (editMember edit item)
    rfl fun name v rest => ?_
  cases v with
  | marked mark op =>
      simp only [operations, editMember]
      split
      · cases nested edit op with
        | error fault => rfl
        | ok op₁ =>
            simp only [ok_bind]
            cases edit.operation item op₁ <;> rfl
      · rfl
  | _ => simp [operations, editMember]

theorem nested_iff {op ns : Members} :
    nested edit op = .ok ns ↔
      Members.Aligned (fun name v w => editPart edit name v = .ok w) op ns :=
  aligned_of_walk (nested edit) (editPart edit) rfl fun name v rest => by
    simp only [nested, editPart]
    split
    · cases callbacks edit v <;> rfl
    · rfl

theorem callbackEntries_iff {ms ns : Members} :
    callbackEntries edit ms = .ok ns ↔
      Members.Aligned (fun _ v w => editCallback edit v = .ok w) ms ns := by
  refine aligned_of_walk (callbackEntries edit) (fun _ => editCallback edit)
    rfl fun name v rest => ?_
  cases v with
  | marked mark inner =>
      simp only [callbackEntries, editCallback]
      cases pathItems edit inner <;> rfl
  | _ => simp [callbackEntries, editCallback]

theorem pathItems_iff {ms ns : Members} :
    pathItems edit ms = .ok ns ↔
      Members.Aligned (fun _ v w => editItem edit v = .ok w) ms ns := by
  refine aligned_of_walk (pathItems edit) (fun _ => editItem edit)
    rfl fun name v rest => ?_
  cases v with
  | marked mark item =>
      simp only [pathItems, editItem]
      cases operations edit item item <;> rfl
  | _ => simp [pathItems, editItem]

/-! ## From the result back to what it was made from -/

variable {edit}

/-- Every path item of the result was made from one. -/
theorem holdsItem_pathItems {paths paths' item' : Members}
    (h : pathItems edit paths = .ok paths') (hitem : HoldsItem paths' item') :
    ∃ item changed, HoldsItem paths item ∧ operations edit item item = .ok changed ∧
      item' = edit.item changed := by
  obtain ⟨name, hmem⟩ := hitem
  obtain ⟨v, hv, hedit⟩ := ((pathItems_iff edit).mp h).mem_right hmem
  cases v with
  | marked mark item =>
      obtain ⟨changed, hchanged, heq⟩ := bind_eq_ok.mp hedit
      obtain rfl := (Tree.marked.inj (Except.ok.inj heq)).2
      exact ⟨item, changed, ⟨name, hv⟩, hchanged, rfl⟩
  | _ => simp [editItem] at hedit

/-- Every operation of an edited path item was made from one. -/
theorem holdsOperation_operations {item ms changed op' : Members}
    (h : operations edit item ms = .ok changed) (hop : HoldsOperation changed op') :
    ∃ op op₁, HoldsOperation ms op ∧ nested edit op = .ok op₁ ∧
      edit.operation item op₁ = .ok op' := by
  obtain ⟨name, hmethod, hmem⟩ := hop
  obtain ⟨v, hv, hedit⟩ := ((operations_iff edit).mp h).mem_right hmem
  cases v with
  | marked mark op =>
      simp only [editMember, if_pos hmethod] at hedit
      obtain ⟨op₁, hnested, hrest⟩ := bind_eq_ok.mp hedit
      obtain ⟨op₂, hop₂, heq⟩ := bind_eq_ok.mp hrest
      obtain rfl := (Tree.marked.inj (Except.ok.inj heq)).2
      exact ⟨op, op₁, ⟨name, hmethod, hv⟩, hnested, hop₂⟩
  | _ => simp [editMember] at hedit

/-- Every callback of an operation after the callbacks were edited was made from one. -/
theorem holdsCallback_nested {op op₁ inner' : Members} (h : nested edit op = .ok op₁)
    (hinner : HoldsCallback op₁ inner') :
    ∃ inner, HoldsCallback op inner ∧ pathItems edit inner = .ok inner' := by
  obtain ⟨callbacks', name, hcallbacks, hmem⟩ := hinner
  obtain ⟨v, hv, hpart⟩ := ((nested_iff edit).mp h).mem_right hcallbacks
  simp only [editPart, Scalar.str_same_str, beq_self_eq_true, if_true] at hpart
  cases v with
  | marked mark map =>
      obtain ⟨entries, hentries, heq⟩ := bind_eq_ok.mp hpart
      obtain rfl := (Tree.marked.inj (Except.ok.inj heq)).2
      obtain ⟨w, hw, hedit⟩ := ((callbackEntries_iff edit).mp hentries).mem_right hmem
      cases w with
      | marked mark inner =>
          obtain ⟨inner₁, hinner₁, heq⟩ := bind_eq_ok.mp hedit
          obtain rfl := (Tree.marked.inj (Except.ok.inj heq)).2
          exact ⟨inner, ⟨map, name, hv, hw⟩, hinner₁⟩
      | _ => simp [editCallback] at hedit
  | _ =>
      simp only [callbacks] at hpart
      split at hpart <;> simp at hpart

/-- The callbacks of an operation are an object, or blank. -/
def UsableCallbacks (op : Members) : Prop :=
  ∀ v, (Scalar.str "callbacks", v) ∈ op → v.isObject = true ∨ v.isBlank = true

/-- After callbacks were edited they are usable. -/
theorem usableCallbacks_of_nested {op op₁ : Members} (h : nested edit op = .ok op₁) :
    UsableCallbacks op₁ := by
  intro w hw
  obtain ⟨v, -, hpart⟩ := ((nested_iff edit).mp h).mem_right hw
  simp only [editPart, Scalar.str_same_str, beq_self_eq_true, if_true] at hpart
  cases v with
  | marked mark map =>
      obtain ⟨entries, -, heq⟩ := bind_eq_ok.mp hpart
      obtain rfl := Except.ok.inj heq
      exact .inl rfl
  | _ =>
      simp only [callbacks] at hpart
      split at hpart
      · obtain rfl := Except.ok.inj hpart
        exact .inr ‹_›
      · simp at hpart

/-! ## From one step to the whole edit -/

/-- An edit that takes the members of its path items from those that are there, and
leaves it to the walk to change callbacks. -/
structure Regular (edit : PathItemEdit) : Prop where
  item : ∀ ms, ∀ e ∈ edit.item ms, e ∈ ms
  callbacks : ∀ item op op' v, edit.operation item op = .ok op' →
    (Scalar.str "callbacks", v) ∈ op' → (Scalar.str "callbacks", v) ∈ op

/-- Operations that agree in everything but their callbacks, which stand in a
relation. -/
def AgreeButCallbacks (R : Value → Value → Prop) : Members → Members → Prop :=
  Members.Aligned fun name v w => if name.same "callbacks" then R v w else v = w

/-- The edit of its callbacks leaves everything else of an operation. -/
theorem agreeButCallbacks_of_nested {op op₁ : Members} (h : nested edit op = .ok op₁) :
    AgreeButCallbacks (fun v w => callbacks edit v = .ok w) op op₁ := by
  refine ((nested_iff edit).mp h).imp fun name v w hpart => ?_
  unfold editPart at hpart
  split at hpart
  · rwa [if_pos ‹_›]
  · rw [if_neg ‹_›]
    exact Except.ok.inj hpart

/-- Operations that agree in everything but their callbacks have the same under
every other name. -/
theorem AgreeButCallbacks.get?_eq {R : Value → Value → Prop} {op op₁ : Members}
    (h : AgreeButCallbacks R op op₁) {name : String} (hname : name ≠ "callbacks") :
    Members.get? (.str name) op₁ = Members.get? (.str name) op := by
  cases hv : Members.get? (.str name) op with
  | none => exact Members.Aligned.get?_none h hv
  | some v =>
      obtain ⟨k, w, hk, hw, hvw⟩ := Members.Aligned.get?_some h hv
      obtain rfl := Scalar.same_str_iff.mp hk
      simp only [Scalar.str_same_str, beq_iff_eq, if_neg hname] at hvw
      rw [hw, hvw]

/-- Operations that agree in everything but their callbacks still do after something was
put under another name. -/
theorem AgreeButCallbacks.put {R : Value → Value → Prop} {op op₁ : Members}
    (h : AgreeButCallbacks R op op₁) {name : String} (hname : name ≠ "callbacks")
    (v : Value) :
    AgreeButCallbacks R (Members.put (.str name) v op)
      (Members.put (.str name) v op₁) := by
  refine Members.Aligned.put h fun k hk => ?_
  obtain rfl : k = .str name := hk.elim id Scalar.same_str_iff.mp
  simp [hname]

/-- What one step of an edit brings about holds throughout the result. A step may use
what held throughout before, of an operation that agrees with the one at hand but for
the callbacks. -/
theorem pathItems_throughout (hregular : Regular edit)
    {fromItem fromOperation onItem onOperation : Members → Prop}
    (hitem : ∀ item changed, fromItem item →
      Members.names changed = Members.names item → onItem (edit.item changed))
    (hoperation : ∀ item op op₁ op', fromOperation op →
      AgreeButCallbacks (fun v w => callbacks edit v = .ok w) op op₁ →
      UsableCallbacks op₁ → edit.operation item op₁ = .ok op' → onOperation op')
    {paths paths' : Members} (hpaths : Throughout fromItem fromOperation paths)
    (h : pathItems edit paths = .ok paths') : Throughout onItem onOperation paths' := by
  induction paths using callback_induction generalizing paths' with
  | step paths ih =>
      refine throughout_iff.mpr fun item' hitem' => ?_
      obtain ⟨item, changed, hitem₀, hchanged, rfl⟩ := holdsItem_pathItems h hitem'
      obtain ⟨hfromItem, hfromOperations⟩ := throughout_iff.mp hpaths item hitem₀
      refine ⟨hitem item changed hfromItem ((operations_iff edit).mp hchanged).names_eq,
        fun op' ⟨name, hmethod, hmem⟩ => ?_⟩
      obtain ⟨op, op₁, hop, hnested, hop'⟩ :=
        holdsOperation_operations hchanged ⟨name, hmethod, hregular.item changed _ hmem⟩
      obtain ⟨hfromOperation, hfromCallbacks⟩ := hfromOperations op hop
      refine ⟨hoperation item op op₁ op' hfromOperation
        (agreeButCallbacks_of_nested hnested) (usableCallbacks_of_nested hnested) hop',
        ?_⟩
      rintro inner' ⟨map, callback, hmap, hinner'⟩
      have hmap₁ := hregular.callbacks item op₁ op' _ hop' hmap
      obtain ⟨inner, hinner, hedit⟩ :=
        holdsCallback_nested hnested ⟨map, callback, hmap₁, hinner'⟩
      exact ih item op inner hitem₀ hop hinner (hfromCallbacks inner hinner) hedit

/-! ### Edits that change nothing -/

/-- What is no object in the place of callbacks stays as it is, if it may
stand there at all. -/
theorem callbacks_of_blank (edit : PathItemEdit) {v : Value}
    (hobject : v.isObject = false) (husable : v.isObject = true ∨ v.isBlank = true) :
    callbacks edit v = .ok v := by
  have hblank : v.isBlank = true := by simpa [hobject] using husable
  cases v with
  | marked mark map => simp [Tree.isObject] at hobject
  | _ => simp [callbacks, hblank]

/-- Callbacks that an edit leaves alone are left alone in their operation. -/
theorem nested_fixed {op : Members} (husable : UsableCallbacks op)
    (h : ∀ inner, HoldsCallback op inner → pathItems edit inner = .ok inner) :
    nested edit op = .ok op := by
  refine (nested_iff edit).mpr (.refl fun e hpart => ?_)
  obtain ⟨part, v⟩ := e
  simp only [editPart]
  split
  · obtain rfl := Scalar.same_str_iff.mp ‹_›
    cases v with
    | marked mark map =>
        have hmap : callbackEntries edit map = .ok map := by
          refine (callbackEntries_iff edit).mpr (.refl fun e hentry => ?_)
          obtain ⟨callback, w⟩ := e
          cases w with
          | marked mark inner =>
              simp [editCallback, h inner ⟨map, callback, hpart, hentry⟩]
          | _ => rfl
        simp [callbacks, hmap]
    | _ => exact callbacks_of_blank edit rfl (husable _ hpart)
  · rfl

/-- Operations that an edit leaves alone are left alone in their path item. -/
theorem operations_fixed {item : Members}
    (h : ∀ op, HoldsOperation item op → nested edit op = .ok op ∧
      edit.operation item op = .ok op) :
    operations edit item item = .ok item := by
  refine (operations_iff edit).mpr (.refl fun e hmem => ?_)
  obtain ⟨name, v⟩ := e
  cases v with
  | marked mark op =>
      by_cases hmethod : isMethod name = true
      · obtain ⟨hnested, hop⟩ := h op ⟨name, hmethod, hmem⟩
        simp [editMember, hmethod, hnested, hop]
      · simp [editMember, hmethod]
  | _ => rfl

/-- An edit leaves alone what each of its steps leaves alone. -/
theorem pathItems_fixed {onItem onOperation : Members → Prop}
    (hitem : ∀ ms, onItem ms → edit.item ms = ms)
    (hoperation : ∀ item op, onItem item → onOperation op →
      edit.operation item op = .ok op)
    (husable : ∀ op, onOperation op → UsableCallbacks op)
    {paths : Members} (h : Throughout onItem onOperation paths) : pathItems edit paths =
      .ok paths := by
  induction paths using callback_induction with
  | step paths ih =>
      refine (pathItems_iff edit).mpr (.refl fun e he => ?_)
      obtain ⟨name, v⟩ := e
      cases v with
      | marked mark item =>
          have hholds : HoldsItem paths item := ⟨name, he⟩
          obtain ⟨honItem, hops⟩ := throughout_iff.mp h item hholds
          have hops₀ : operations edit item item = .ok item :=
            operations_fixed fun op hop => by
            obtain ⟨honOp, hinner⟩ := hops op hop
            exact ⟨nested_fixed (husable op honOp) fun inner hcallback =>
                ih item op inner hholds hop hcallback (hinner inner hcallback),
              hoperation item op honItem honOp⟩
          simp [editItem, hops₀, hitem item honItem]
      | _ => rfl

/-! ### Edits that come to an end -/

/-- A walk along members comes to an end exactly when each of its steps does. -/
private theorem succeeds_iff_of_aligned (step : Scalar → Value → Except Fault Value)
    {walk : Except Fault Members} {ms : Members}
    (h : ∀ {ns}, walk = .ok ns ↔
      Members.Aligned (fun name v w => step name v = .ok w) ms ns) :
    Succeeds walk ↔ ∀ e ∈ ms, Succeeds (step e.1 e.2) := by
  constructor
  · rintro ⟨ns, hns⟩ e he
    obtain ⟨w, -, hw⟩ := (h.mp hns).flip.mem_right he
    exact ⟨w, hw⟩
  · intro hsteps
    obtain ⟨ns, hns⟩ :=
      Members.Aligned.exists_of_forall (fun name v w => step name v = .ok w) hsteps
    exact ⟨ns, h.mpr hns⟩

private theorem callbacks_succeeds_iff {edit : PathItemEdit} {v : Value} :
    Succeeds (callbacks edit v) ↔ (v.isObject = true ∨ v.isBlank = true) ∧
      ∀ map name inner, v = .object map → (name, Value.object inner) ∈ map →
        Succeeds (pathItems edit inner) := by
  cases v with
  | marked mark map =>
      have hwalk : Succeeds (callbackEntries edit map) ↔ _ :=
        succeeds_iff_of_aligned (fun _ => editCallback edit) (callbackEntries_iff edit)
      rw [callbacks, succeeds_bind]
      constructor
      · rintro ⟨map', hmap', -⟩
        refine ⟨.inl rfl, fun map₀ name inner heq hinner => ?_⟩
        obtain rfl := (Tree.marked.inj heq).2
        obtain ⟨inner', hinner', -⟩ :=
          succeeds_bind.mp (hwalk.mp ⟨map', hmap'⟩ _ hinner)
        exact ⟨inner', hinner'⟩
      · rintro ⟨-, hinner⟩
        obtain ⟨map', hmap'⟩ := hwalk.mpr fun e he => by
          obtain ⟨name, w⟩ := e
          cases w with
          | marked mark inner =>
              obtain ⟨inner', hinner'⟩ := hinner map name inner rfl he
              exact succeeds_bind.mpr ⟨inner', hinner', succeeds_ok _⟩
          | _ => exact succeeds_ok _
        exact ⟨map', hmap', succeeds_ok _⟩
  | _ =>
      rw [callbacks]
      · split
        · simp [succeeds_ok, *]
        · simp [Succeeds, Tree.isObject, *]
      · simp

/-- The callbacks of an operation are edited if they are usable and the paths inside
them are edited. -/
theorem nested_succeeds_iff {edit : PathItemEdit} {op : Members} :
    Succeeds (nested edit op) ↔
      UsableCallbacks op ∧ ∀ inner, HoldsCallback op inner →
        Succeeds (pathItems edit inner) := by
  have hwalk : Succeeds (nested edit op) ↔ _ :=
    succeeds_iff_of_aligned (editPart edit) (nested_iff edit)
  have hpart : ∀ name v, Succeeds (editPart edit name v) ↔
      (name = .str "callbacks" → Succeeds (callbacks edit v)) := by
    intro name v
    rw [editPart]
    split
    · simp [Scalar.same_str_iff.mp ‹_›]
    · have hname : name ≠ .str "callbacks" := fun heq =>
        ‹¬_› (Scalar.same_str_iff.mpr heq)
      simp [hname, succeeds_ok]
  simp only [hwalk, hpart, callbacks_succeeds_iff]
  constructor
  · intro h
    refine ⟨fun v hv => (h _ hv rfl).1, ?_⟩
    rintro inner ⟨map, name, hmap, hinner⟩
    exact (h _ hmap rfl).2 map name inner rfl hinner
  · rintro ⟨husable, hinner⟩ ⟨_, v⟩ he rfl
    refine ⟨husable v he, ?_⟩
    rintro map name inner rfl hmem
    exact hinner inner ⟨map, name, he, hmem⟩

theorem operations_succeeds_iff {edit : PathItemEdit} {item : Members} :
    Succeeds (operations edit item item) ↔
      ∀ op, HoldsOperation item op → ∃ op₁, nested edit op = .ok op₁ ∧
        Succeeds (edit.operation item op₁) := by
  rw [succeeds_iff_of_aligned (editMember edit item) (operations_iff edit)]
  constructor
  · rintro h op ⟨name, hmethod, hmem⟩
    have hmember := h _ hmem
    rw [editMember, if_pos hmethod] at hmember
    obtain ⟨op₁, hnested, hrest⟩ := succeeds_bind.mp hmember
    obtain ⟨op', hop', -⟩ := succeeds_bind.mp hrest
    exact ⟨op₁, hnested, op', hop'⟩
  · rintro h ⟨name, v⟩ he
    cases v with
    | marked mark op =>
        by_cases hmethod : isMethod name = true
        · obtain ⟨op₁, hnested, op', hop⟩ := h op ⟨name, hmethod, he⟩
          exact ⟨.object op', by simp [editMember, hmethod, hnested, hop]⟩
        · exact ⟨.object op, by simp [editMember, hmethod]⟩
    | _ => exact succeeds_ok _

theorem pathItems_succeeds_iff_operations {edit : PathItemEdit} {paths : Members} :
    Succeeds (pathItems edit paths) ↔ ∀ item, HoldsItem paths item →
      Succeeds (operations edit item item) := by
  rw [succeeds_iff_of_aligned (fun _ => editItem edit) (pathItems_iff edit)]
  constructor
  · rintro h item ⟨name, hmem⟩
    obtain ⟨changed, hchanged, -⟩ := succeeds_bind.mp (h _ hmem)
    exact ⟨changed, hchanged⟩
  · rintro h ⟨name, v⟩ he
    cases v with
    | marked mark item =>
        obtain ⟨changed, hchanged⟩ := h item ⟨name, he⟩
        exact succeeds_bind.mpr ⟨changed, hchanged, succeeds_ok _⟩
    | _ => exact succeeds_ok _

/-- An edit comes to an end exactly when callbacks are usable and no operation stops it,
at any callback depth. What an operation must be for that may not depend on its
callbacks, since these have been edited before it. -/
theorem pathItems_succeeds_iff {edit : PathItemEdit} {can : Members → Members → Prop}
    (hcan : ∀ item op op₁,
      AgreeButCallbacks (fun v w => callbacks edit v = .ok w) op op₁ →
      (Succeeds (edit.operation item op₁) ↔ can item op)) {paths : Members} :
    Succeeds (pathItems edit paths) ↔
      ∀ item op, ItemWithin paths item → HoldsOperation item op → UsableCallbacks op ∧
        can item op := by
  induction paths using callback_induction with
  | step paths ih =>
      rw [pathItems_succeeds_iff_operations]
      constructor
      · intro h item' op' hwithin hop'
        rcases itemWithin_iff.mp hwithin with htop
          | ⟨item, op, inner, hitem, hop, hinner, hdeep⟩
        · obtain ⟨op₁, hnested, hsucceeds⟩ :=
            operations_succeeds_iff.mp (h item' htop) op' hop'
          exact ⟨(nested_succeeds_iff.mp ⟨op₁, hnested⟩).1,
            (hcan item' op' op₁ (agreeButCallbacks_of_nested hnested)).mp hsucceeds⟩
        · obtain ⟨op₁, hnested, -⟩ := operations_succeeds_iff.mp (h item hitem) op hop
          have hpaths := (nested_succeeds_iff.mp ⟨op₁, hnested⟩).2 inner hinner
          exact (ih item op inner hitem hop hinner).mp hpaths item' op' hdeep hop'
      · intro h item hitem
        refine operations_succeeds_iff.mpr fun op hop => ?_
        obtain ⟨husable, hop₁⟩ := h item op (.top hitem) hop
        obtain ⟨op₁, hnested⟩ := nested_succeeds_iff.mpr ⟨husable, fun inner hinner =>
          (ih item op inner hitem hop hinner).mpr fun item' op' hdeep hop' =>
            h item' op' (itemWithin_iff.mpr
              (.inr ⟨item, op, inner, hitem, hop, hinner, hdeep⟩)) hop'⟩
        exact ⟨op₁, hnested,
          (hcan item op op₁ (agreeButCallbacks_of_nested hnested)).mpr hop₁⟩

/-! ### Edits that another edit undoes -/

/-- What one edit makes of callbacks, and another edit makes into them again. -/
def CallbacksUndone (first second : PathItemEdit) (v w : Value) : Prop :=
  callbacks first v = .ok w ∧ callbacks second w = .ok v

variable {first second : PathItemEdit}

/-- If the maps of paths in callbacks are restored by a second edit, so are
the callbacks. -/
theorem callbacksUndone_exists {op : Members} {v : Value} (husable : UsableCallbacks op)
    (hv : (Scalar.str "callbacks", v) ∈ op)
    (h : ∀ inner, HoldsCallback op inner →
      ∃ inner', pathItems first inner = .ok inner' ∧
        pathItems second inner' = .ok inner) :
    ∃ w, CallbacksUndone first second v w := by
  cases v with
  | marked mark map =>
      have hentries : ∀ e ∈ map, ∃ w, editCallback first e.2 = .ok w ∧
          editCallback second w = .ok e.2 := by
        rintro ⟨callback, x⟩ hentry
        cases x with
        | marked mark inner =>
            obtain ⟨inner', hfirst, hsecond⟩ := h inner ⟨map, callback, hv, hentry⟩
            exact ⟨.object
              inner', by simp [editCallback, hfirst], by simp [editCallback, hsecond]⟩
        | _ => exact ⟨_, rfl, rfl⟩
      obtain ⟨map', hmap'⟩ := Members.Aligned.exists_of_forall
        (fun _ v w => editCallback first v = .ok w ∧ editCallback second w = .ok v)
          hentries
      have hfirst := (callbackEntries_iff first).mpr (hmap'.imp fun _ _ _ hR => hR.1)
      have hsecond :=
        (callbackEntries_iff second).mpr (hmap'.flip.imp fun _ _ _ hR => hR.2)
      exact ⟨.object map', by simp [callbacks, hfirst], by simp [callbacks, hsecond]⟩
  | _ =>
      exact ⟨_, callbacks_of_blank first rfl (husable _ hv),
        callbacks_of_blank second rfl (husable _ hv)⟩

/-- Callbacks that a second edit restores are restored in their operation. -/
theorem nested_undone {op : Members} (husable : UsableCallbacks op)
    (h : ∀ inner, HoldsCallback op inner →
      ∃ inner', pathItems first inner = .ok inner' ∧
        pathItems second inner' = .ok inner) :
    ∃ op₁, nested first op = .ok op₁ ∧
      AgreeButCallbacks (CallbacksUndone first second) op op₁ := by
  have hparts : ∀ e ∈ op, ∃ w,
      if e.1.same "callbacks" then CallbacksUndone first second e.2 w else e.2 = w := by
    rintro ⟨name, v⟩ hpart
    by_cases hname : name.same "callbacks" = true
    · obtain rfl := Scalar.same_str_iff.mp hname
      simpa using callbacksUndone_exists husable hpart h
    · exact ⟨v, by simp [hname]⟩
  obtain ⟨op₁, hop₁⟩ := Members.Aligned.exists_of_forall
    (fun name v w => if name.same "callbacks" then CallbacksUndone first second v w
      else v = w) hparts
  refine ⟨op₁, (nested_iff first).mpr (hop₁.imp fun name v w hR => ?_), hop₁⟩
  unfold editPart
  split at hR
  · rw [if_pos ‹_›]; exact hR.1
  · rw [if_neg ‹_›, hR]; rfl

/-- Undoing the edit of callbacks gives an operation back that agrees in
everything else. -/
theorem nested_of_agree {op op₁ : Members}
    (h : AgreeButCallbacks (CallbacksUndone first second) op op₁) :
    nested second op₁ = .ok op := by
  refine (nested_iff second).mpr (h.flip.imp fun name w v hR => ?_)
  unfold editPart
  split at hR
  · rw [if_pos ‹_›]; exact hR.2
  · rw [if_neg ‹_›, hR]; rfl

/-- What makes an edit of operations and path items one that another edit undoes. The
first edit must not look at callbacks, so that it does not matter that they have been
edited before. -/
structure Undone (onItem onOperation : Members → Prop) (first second : PathItemEdit) :
    Prop where
  firstItem : ∀ item changed, onItem item → Members.names changed = Members.names item →
    first.item changed = changed
  secondItem : ∀ item, second.item item = item
  operation : ∀ item op, onItem item → onOperation op →
    ∃ op', first.operation item op = .ok op' ∧ ∀ item',
      second.operation item' op' = .ok op
  callbacks : ∀ R item op op₁ op', AgreeButCallbacks R op op₁ →
    first.operation item op = .ok op' →
    ∃ op₂, first.operation item op₁ = .ok op₂ ∧ AgreeButCallbacks R op' op₂
  usable : ∀ op, onOperation op → UsableCallbacks op

/-- An edit of a map of paths is undone by another one if each of its steps is. -/
theorem pathItems_undone {onItem onOperation : Members → Prop}
    (hundone : Undone onItem onOperation first second) {paths : Members}
    (h : Throughout onItem onOperation paths) :
    ∃ paths', pathItems first paths = .ok paths' ∧
      pathItems second paths' = .ok paths := by
  induction paths using callback_induction with
  | step paths ih =>
      have hentries : ∀ e ∈ paths, ∃ w, editItem first e.2 = .ok w ∧
          editItem second w = .ok e.2 := by
        rintro ⟨name, v⟩ he
        cases v with
        | marked mark item =>
            have hholds : HoldsItem paths item := ⟨name, he⟩
            obtain ⟨honItem, hops⟩ := throughout_iff.mp h item hholds
            have hmembers : ∀ e ∈ item, ∃ w, editMember first item e.1 e.2 = .ok w ∧
                ∀ item', editMember second item' e.1 w = .ok e.2 := by
              rintro ⟨method, x⟩ hmem
              cases x with
              | marked mark op =>
                  by_cases hmethod : isMethod method = true
                  · have hop : HoldsOperation item op := ⟨method, hmethod, hmem⟩
                    obtain ⟨honOp, hinner⟩ := hops op hop
                    obtain ⟨op₁, hnested, hagree⟩ :=
                      nested_undone (hundone.usable op honOp) fun inner hcallback =>
                      ih item op inner hholds hop hcallback (hinner inner hcallback)
                    obtain ⟨op', hop', hback⟩ := hundone.operation item op honItem honOp
                    obtain ⟨op₂, hop₂, hagree'⟩ :=
                      hundone.callbacks _ item op op₁ op' hagree hop'
                    refine ⟨.object op₂, by simp [editMember, hmethod, hnested, hop₂],
                      fun item' => ?_⟩
                    simp [editMember, hmethod, nested_of_agree hagree', hback item']
                  · exact ⟨.object op, by simp [editMember, hmethod],
                      fun _ => by simp [editMember, hmethod]⟩
              | _ => exact ⟨_, rfl, fun _ => rfl⟩
            obtain ⟨changed, hchanged⟩ := Members.Aligned.exists_of_forall
              (fun name v w => editMember first item name v = .ok w ∧
                ∀ item', editMember second item' name w = .ok v) hmembers
            have hfirst :=
              (operations_iff first).mpr (hchanged.imp fun _ _ _ hR => hR.1)
            have hsecond := (operations_iff second).mpr
              (hchanged.flip.imp fun _ _ _ hR => hR.2 changed)
            have hsame := hundone.firstItem item changed honItem hchanged.names_eq
            exact ⟨.object changed, by simp [editItem, hfirst, hsame],
              by simp [editItem, hsecond, hundone.secondItem item]⟩
        | _ => exact ⟨_, rfl, rfl⟩
      obtain ⟨paths', hpaths'⟩ := Members.Aligned.exists_of_forall
        (fun _ v w => editItem first v = .ok w ∧ editItem second w = .ok v) hentries
      exact ⟨paths', (pathItems_iff first).mpr (hpaths'.imp fun _ _ _ hR => hR.1),
        (pathItems_iff second).mpr (hpaths'.flip.imp fun _ _ _ hR => hR.2)⟩

end PathItemEdit

end ApiWorkbench.Document
