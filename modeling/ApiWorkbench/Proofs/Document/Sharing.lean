import ApiWorkbench.Document.Sharing
import ApiWorkbench.Proofs.Document.CompletionFrame
import ApiWorkbench.Proofs.Document.Pruned
import ApiWorkbench.Proofs.Document.PruningFrame
import ApiWorkbench.Proofs.Marks

/-!
# Documents whose objects stand in one place each

In a document without anchors no change to an object shows anywhere else. A visit
then notes nothing and finds every object as it is written, so it comes to what a
function on values comes to; `Follows` says so, and is carried from the parts of a
visit to the whole.

Visits change an operation before its callbacks, and the functions on values after them.
What becomes of an operation does not depend on its callbacks, and the two may be
exchanged (`PassesCallbacks`). A visit also goes to the operations of a path item by the
order of the methods, not by the order in which they are written; since no two methods
have the same name, this comes to the same.

## Main results

* `complete_ofValue_iff`, `prune_ofValue_iff`: without anchors, documents are completed
  and pruned as values are.
* `complete_settles`, `complete_frame`, `prune_frame`: what then becomes of a document.
* `complete_unsettled`, `complete_gathers`, `prune_reaches_across`: why that takes a
  document without anchors.
-/

namespace ApiWorkbench.Document

open AnchoredValue

/-! ## Changes of one object -/

section

variable (name : String) (v : Value) (ms : Members)

@[simp] theorem fill_ofMembers :
    fill name (ofValue v) (ofMembers ms) = ofMembers (fill name v ms) := by
  rw [fill, fill, get?_ofMembers]
  cases Members.get? name ms with
  | none => exact put_ofMembers name ms v
  | some w =>
      simp only [Option.map_some, isBlank_ofValue, put_ofMembers]
      split <;> rfl

theorem fill_emptyObject : fill name .emptyObject (ofMembers ms) =
    ofMembers (fill name .emptyObject ms) :=
  fill_ofMembers name (.object []) ms

theorem fill_emptyList : fill name (.list []) (ofMembers ms) =
    ofMembers (fill name (.list []) ms) :=
  fill_ofMembers name (.list []) ms

@[simp] theorem dropBlank_ofMembers :
    dropBlank name (ofMembers ms) = ofMembers (dropBlank name ms) := by
  rw [dropBlank, dropBlank, get?_ofMembers]
  cases Members.get? name ms with
  | none => rfl
  | some w =>
      simp only [Option.map_some, isBlank_ofValue, erase_ofMembers]
      split <;> rfl

theorem hasAny_ofValue (needed : List String) :
    hasAny needed (ofValue v) = hasAny needed v := by
  have hnames : (needed.anyM
      fun (name : String) => do pure !(← (ofValue v).member name).isBlank) =
      (needed.anyM fun (name :
      String) => do pure !(← v.member name).isBlank : Except Fault Bool) := by
    refine congrArg (fun p : String → Except Fault Bool => needed.anyM p)
      (funext fun name => ?_)
    rw [member_ofValue]
    cases v.member name <;> simp
  rw [hasAny, hasAny, isBlank_ofValue, hnames]

@[simp] theorem dropUnless_ofMembers (needed : List String) :
    dropUnless name needed (ofMembers ms) =
      ofMembers <$> dropUnless name needed ms := by
  rw [dropUnless, dropUnless, get?_ofMembers]
  cases Members.get? name ms with
  | none => rfl
  | some w =>
      simp only [Option.map_some, hasAny_ofValue, erase_ofMembers]
      cases hasAny needed w with
      | error fault => rfl
      | ok b => cases b <;> rfl

/-- Changing the value under a name, if the change does not look at marks. -/
theorem modifyM_ofMembers {f : AnchoredValue → Except Fault AnchoredValue}
    {g : Value → Except Fault Value} (h : ∀ v, f (ofValue v) = ofValue <$> g v) :
    Members.modifyM (.str name) f (ofMembers ms) =
      ofMembers <$> Members.modifyM (.str name) g ms := by
  rw [Members.modifyM_eq, Members.modifyM_eq, get?_ofMembers]
  cases Members.get? name ms with
  | none => rfl
  | some w =>
      simp only [Option.map_some, h]
      cases g w with
      | error fault => rfl
      | ok u => exact congrArg Except.ok (put_ofMembers name ms u)

end

/-! ## Parameters -/

theorem parameterKey_ofMembers (parameter : Members) :
    parameterKey (ofMembers parameter) = parameterKey parameter := by
  have hpart : ∀ name : Scalar,
      ((Members.get? name (ofMembers parameter)).getD .null).name =
      ((Members.get? name parameter).getD .null).name := fun name => by
    rw [get?_ofMembers]
    cases Members.get? name parameter with
    | none => rfl
    | some v => exact name_ofValue v
  rw [parameterKey, parameterKey]
  simp only [hpart]
  rw [get?_ofMembers]
  cases Members.get? "$ref" parameter with
  | none => rfl
  | some v =>
      cases v with
      | scalar s => cases s <;> rfl
      | _ => rfl

theorem parameterKeys_ofValue (xs : List Value) :
    parameterKeys (xs.map ofValue) = parameterKeys xs := by
  induction xs with
  | nil => rfl
  | cons x xs ih =>
      rw [List.map_cons]
      cases x with
      | marked mark parameter =>
          rw [← ofValue_object, parameterKeys, parameterKeys, ih,
            parameterKey_ofMembers]
      | _ => exact ih

theorem newParameters_ofValue (seen : List ParameterKey) (xs : List Value) :
    newParameters seen (xs.map ofValue) = List.map ofValue <$>
      newParameters seen xs := by
  induction xs generalizing seen with
  | nil => rfl
  | cons x xs ih =>
      rw [List.map_cons]
      cases x with
      | marked mark parameter =>
          rw [← ofValue_object, newParameters, newParameters, parameterKey_ofMembers]
          cases parameterKey parameter with
          | error fault => rfl
          | ok key =>
              simp only [ok_bind]
              split
              · exact ih seen
              · rw [ih]
                cases newParameters (key :: seen) xs <;> rfl
      | _ => exact ih seen

@[simp] theorem mergeParameters_ofValue (shared own : List Value) :
    mergeParameters (shared.map ofValue) (own.map ofValue) = List.map ofValue <$>
      mergeParameters shared own := by
  rw [mergeParameters, mergeParameters, parameterKeys_ofValue]
  cases parameterKeys own with
  | error fault => rfl
  | ok seen =>
      simp only [ok_bind, newParameters_ofValue]
      cases newParameters seen shared with
      | error fault => rfl
      | ok added => exact congrArg Except.ok List.map_append.symm

/-! ## Completion and pruning of one object -/

theorem completeTag_ofMembers (tag : Members) :
    completeTag (ofMembers tag) = ofMembers (completeTag tag) :=
  fill_emptyObject "externalDocs" tag

theorem completeInfo_ofMembers (info : Members) :
    completeInfo (ofMembers info) = ofMembers (completeInfo info) := by
  rw [completeInfo, fill_emptyObject, fill_emptyObject, completeInfo]

theorem completeComponents_ofMembers (components : Members) :
    completeComponents (ofMembers components) =
      ofMembers (completeComponents components) :=
  List.foldl_hom ofMembers fun ms name => fill_emptyObject name ms

theorem completeOperation_ofMembers (item op : Members) :
    completeOperation (ofMembers item) (ofMembers op) =
      ofMembers <$> completeOperation item op := by
  have hshared :
      ((Members.get? "parameters" (ofMembers item)).getD .null).orElse (.list []) =
      ofValue (((Members.get? "parameters" item).getD .null).orElse (.list [])) := by
    rw [← orElse_ofValue, get?_ofMembers]
    cases Members.get? "parameters" item <;> rfl
  rw [completeOperation, completeOperation, hshared, fill_emptyList, fill_emptyList,
    fill_emptyObject]
  refine modifyM_ofMembers _ _ fun own => ?_
  rw [items_ofValue, items_ofValue]
  cases (((Members.get? "parameters" item).getD .null).orElse (.list [])).items with
  | error fault => rfl
  | ok shared =>
      cases own.items with
      | error fault => rfl
      | ok own =>
          simp only [map_ok, ok_bind, mergeParameters_ofValue]
          cases mergeParameters shared own with
          | error fault => rfl
          | ok merged => exact congrArg Except.ok (ofValue_list merged)

@[simp] theorem isConstant_ofValue (v : Value) :
    isConstant (ofValue v) = isConstant v := by
  induction v using Tree.parts_induction with
  | pair a b iha ihb => rw [← ofValue_pair, isConstant, isConstant, iha, ihb]
  | _ => rfl

theorem distinct_ofValue (seen xs : List Value) :
    distinct (seen.map ofValue) (xs.map ofValue) = (distinct seen xs).map ofValue := by
  induction xs generalizing seen with
  | nil => rfl
  | cons x xs ih =>
      have hseen : (seen.map ofValue).any (ofValue x).same = seen.any x.same := by
        simp [List.any_map, Function.comp_def]
      rw [List.map_cons, distinct, distinct, hseen]
      split
      · exact ih seen
      · rw [List.map_cons, ← ih]
        rfl

theorem pruneOperationTags_ofValue (tags : Value) :
    pruneOperationTags (ofValue tags) = ofValue <$> pruneOperationTags tags := by
  rw [pruneOperationTags, pruneOperationTags, items_ofValue]
  cases tags.items with
  | error fault => rfl
  | ok names =>
      have hnames : (names.map ofValue).all isConstant = names.all isConstant := by
        simp [List.all_map, Function.comp_def]
      simp only [map_ok, ok_bind, hnames]
      split
      · exact congrArg Except.ok
          ((congrArg _ (distinct_ofValue [] names)).trans (ofValue_list _))
      · rfl

theorem pruneOperation_ofMembers (op : Members) :
    pruneOperation (ofMembers op) = ofMembers <$> pruneOperation op := by
  rw [pruneOperation, pruneOperation, dropUnless_ofMembers]
  cases dropUnless "externalDocs" ["url"] op with
  | error fault => rfl
  | ok op =>
      rw [map_ok, ok_bind, ok_bind, dropBlank_ofMembers]
      exact modifyM_ofMembers "tags" _ pruneOperationTags_ofValue

theorem pruneInfo_ofMembers (info : Members) :
    pruneInfo (ofMembers info) = ofMembers <$> pruneInfo info := by
  rw [pruneInfo, pruneInfo, dropUnless_ofMembers]
  cases dropUnless "license" ["name"] info with
  | error fault => rfl
  | ok info => exact dropUnless_ofMembers "contact" info _

theorem pruneComponents_ofMembers (components : Members) :
    pruneComponents (ofMembers components) = ofMembers (pruneComponents components) :=
  List.foldl_hom ofMembers fun ms name => dropBlank_ofMembers name ms

/-! ## Operations and their callbacks -/

namespace PathItemEdit

variable {edit : PathItemEdit} {R : Value → Value → Prop} {item op op₁ op' : Members}
  {name : String}

/-- An edit whose change of an operation neither depends on the callbacks nor changes
them. -/
structure PassesCallbacks (edit : PathItemEdit) : Prop where
  agrees : ∀ (R : Value → Value → Prop) (item op op₁ op' : Members),
    AgreeButCallbacks R op op₁ →
    edit.operation item op = .ok op' → ∃ op₂, edit.operation item op₁ = .ok op₂ ∧
      AgreeButCallbacks R op' op₂
  keeps : ∀ (item op op' : Members), edit.operation item op = .ok op' →
    ∀ v, (Scalar.str "callbacks", v) ∈ op' ↔ (Scalar.str "callbacks", v) ∈ op

/-- The relation of the callbacks may be read from the other side. -/
theorem AgreeButCallbacks.flip (h : AgreeButCallbacks R op op₁) :
    AgreeButCallbacks (fun v w => R w v) op₁ op := by
  refine Members.Aligned.imp (Members.Aligned.flip h) fun k v w hvw => ?_
  split
  · rwa [if_pos ‹_›] at hvw
  · rw [if_neg ‹_›] at hvw
    exact hvw.symm

theorem AgreeButCallbacks.erase (h : AgreeButCallbacks R op op₁) (name : String) :
    AgreeButCallbacks R (Members.erase (.str name) op)
      (Members.erase (.str name) op₁) :=
  Members.Aligned.filter h fun k => !k.same name

private theorem AgreeButCallbacks.dropUnless
    (h : AgreeButCallbacks R op op₁) (hname : name ≠ "callbacks") {needed : List String}
    (hop' : dropUnless name needed op = .ok op') :
    ∃ op₂, Document.dropUnless name needed op₁ = .ok op₂ ∧
      AgreeButCallbacks R op' op₂ := by
  rw [Document.dropUnless] at hop' ⊢
  rw [h.get?_eq hname]
  split at hop'
  · obtain rfl := Except.ok.inj hop'
    exact ⟨op₁, rfl, h⟩
  · obtain ⟨b, hb, hop'⟩ := bind_eq_ok.mp hop'
    obtain rfl := Except.ok.inj hop'
    rw [hb, ok_bind]
    cases b with
    | true => exact ⟨op₁, rfl, h⟩
    | false => exact ⟨_, rfl, h.erase name⟩

private theorem AgreeButCallbacks.dropBlank (h : AgreeButCallbacks R op op₁)
    (hname : name ≠ "callbacks") :
    AgreeButCallbacks R (dropBlank name op) (Document.dropBlank name op₁) := by
  rw [Document.dropBlank, Document.dropBlank, h.get?_eq hname]
  split
  · exact h
  · split
    · exact h.erase name
    · exact h

private theorem AgreeButCallbacks.modifyM (h : AgreeButCallbacks R op op₁)
    (hname : name ≠ "callbacks") {f : Value → Except Fault Value}
    (hop' : Members.modifyM (.str name) f op = .ok op') :
    ∃ op₂, Members.modifyM (.str name) f op₁ = .ok op₂ ∧
      AgreeButCallbacks R op' op₂ := by
  have hread := h.get?_eq hname
  rw [Members.modifyM_eq] at hop' ⊢
  cases hget : Members.get? (.str name) op with
  | none =>
      rw [hget] at hop' hread
      obtain rfl := Except.ok.inj hop'
      exact ⟨op₁, by rw [hread], h⟩
  | some v =>
      rw [hget] at hop' hread
      obtain ⟨w, hw, rfl⟩ := map_eq_ok.mp hop'
      rw [hread]
      exact ⟨_, map_eq_ok.mpr ⟨w, hw, rfl⟩, h.put hname w⟩

/-- Something is in an operation under another name if it was before a put. -/
private theorem callbacks_mem_put (hname : name ≠ "callbacks") (v : Value) {w : Value} :
    (Scalar.str "callbacks", w) ∈ Members.put (.str name) v op ↔
      (Scalar.str "callbacks", w) ∈ op :=
  ⟨fun h => (Members.mem_put_str h).resolve_right fun heq => by simp_all,
    Members.mem_put_of_ne (by simpa using hname.symm)⟩

private theorem callbacks_mem_fill (hname : name ≠ "callbacks")
    (v : Value) {w : Value} :
    (Scalar.str "callbacks", w) ∈ fill name v op ↔
      (Scalar.str "callbacks", w) ∈ op := by
  rcases fill_eq_put_or_self name v op with h | h
  · rw [h, callbacks_mem_put hname]
  · rw [h]

theorem completion_passesCallbacks : PassesCallbacks completion where
  agrees := completion_undone.callbacks
  keeps item op op' h v := by
    obtain ⟨own, shared, merged, -, -, -, rfl⟩ := completeOperation_eq_ok.mp h
    rw [callbacks_mem_put (by decide), filledOperation, callbacks_mem_fill (by decide),
      callbacks_mem_fill (by decide), callbacks_mem_fill (by decide)]

theorem pruning_passesCallbacks : PassesCallbacks pruning where
  agrees R item op op₁ op' hagree hop' := by
    obtain ⟨dropped, hdropped, hop'⟩ := pruneOperation_eq_ok.mp hop'
    obtain ⟨dropped₁, hdropped₁, hagree₁⟩ := hagree.dropUnless (by decide) hdropped
    obtain ⟨op₂, hop₂, hagree₂⟩ :=
      (hagree₁.dropBlank (by decide)).modifyM (by decide) hop'
    exact ⟨op₂, pruneOperation_eq_ok.mpr ⟨dropped₁, hdropped₁, hop₂⟩, hagree₂⟩
  keeps item op op' h v := by
    refine ⟨mem_of_mem_pruneOperation h, fun hv => ?_⟩
    have htrim := pruneOperation_eq_ok_trim h
    have hkept : (Scalar.str "callbacks", v) ∈
        Members.trim [("externalDocs", lacks ["url"]), ("tags", Tree.isBlank)] op := by
      refine List.mem_filter.mpr ⟨hv, ?_⟩
      simp [Members.isNeedless]
    rw [Members.modifyM_eq] at htrim
    split at htrim
    · obtain ⟨w, -, rfl⟩ := map_eq_ok.mp htrim
      exact (callbacks_mem_put (by decide) w).mpr hkept
    · rwa [Except.ok.inj htrim] at hkept

/-- Operations that agree but for edited callbacks are one and what the edit of its
callbacks makes of it. -/
theorem nested_of_agreeButCallbacks
    (h : AgreeButCallbacks (fun v w => callbacks edit v = .ok w) op op₁) :
    nested edit op = .ok op₁ := by
  refine (nested_iff edit).mpr (Members.Aligned.imp h fun k v w hvw => ?_)
  unfold editPart
  split at hvw
  · rwa [if_pos ‹_›]
  · rw [if_neg ‹_›, hvw]
    rfl

/-- An operation may be changed before its callbacks as well as after them. -/
theorem operation_then_nested (hedit : PassesCallbacks edit) {result : Members} :
    (do nested edit (← edit.operation item op) : Except Fault Members) = .ok result ↔
      (do edit.operation item (← nested edit op)) = .ok result := by
  constructor
  · intro h
    obtain ⟨op', hop', hresult⟩ := bind_eq_ok.mp h
    have hparts : ∀ e ∈ op, ∃ w, editPart edit e.1 e.2 = .ok w := by
      rintro ⟨k, v⟩ he
      unfold editPart
      split
      · obtain rfl := Scalar.same_str_iff.mp ‹_›
        obtain ⟨w, -, hw⟩ := ((nested_iff edit).mp hresult).flip.mem_right
          ((hedit.keeps item op op' hop' v).mpr he)
        exact ⟨w, by simpa [editPart] using hw⟩
      · exact ⟨v, rfl⟩
    obtain ⟨op₁, hop₁⟩ := Members.Aligned.exists_of_forall
      (fun name v w => editPart edit name v = .ok w) hparts
    have hnested := (nested_iff edit).mpr hop₁
    obtain ⟨op₂, hop₂, hagree⟩ :=
      hedit.agrees _ item op op₁ op' (agreeButCallbacks_of_nested hnested) hop'
    have hsame := (nested_of_agreeButCallbacks hagree).symm.trans hresult
    exact bind_eq_ok.mpr ⟨op₁, hnested, hop₂.trans hsame⟩
  · intro h
    obtain ⟨op₁, hnested, hop₁⟩ := bind_eq_ok.mp h
    obtain ⟨op', hop', hagree⟩ :=
      hedit.agrees _ item op₁ op result (agreeButCallbacks_of_nested hnested).flip hop₁
    exact bind_eq_ok.mpr ⟨op', hop', nested_of_agreeButCallbacks hagree.flip⟩

end PathItemEdit

/-! ## Visits that note nothing -/

namespace Sharing

variable {α β γ δ : Type}

/-- A visit that comes to the results of a function on values, and leaves it that
nothing has changed. Where that function meets a fault, so does the visit, if not
always the same one. -/
def Follows (visit : Visit β) (into : α → β) (result : Except Fault α) : Prop :=
  ∀ objects : Objects, objects.changed = [] → ∀ b objects',
    visit.run objects = .ok (b, objects') ↔ objects' = objects ∧
    ∃ a, result = .ok a ∧ b = into a

namespace Follows

variable {into : α → β} {into' : γ → δ}

theorem pure {b : β} (a : α) (hb : b = into a) :
    Follows (Pure.pure b) into (Pure.pure a) := by
  intro objects _ b' objects'
  rw [StateT.run_pure, pure_eq_ok, Except.ok.injEq, Prod.mk.injEq,
    and_comm, eq_comm, hb]
  exact and_congr_right fun _ =>
    ⟨fun h => ⟨a, rfl, h.symm⟩, fun ⟨_, h, hb⟩ => by rw [hb, Except.ok.inj h]⟩

theorem fault (fault fault' : Fault) : Follows (throw fault) into (.error fault') := by
  intro objects _ b objects'
  refine iff_of_false (fun h => ?_) fun ⟨_, _, h, _⟩ => ?_
  · cases h
  · cases h

theorem lift (result : Except Fault α) :
    Follows (liftM (into <$> result) : Visit β) into result := by
  cases result with
  | error e => exact fault e e
  | ok a => exact pure a rfl

theorem bind {x : Visit β} {result : Except Fault α} {f : β → Visit δ}
    {g : α → Except Fault γ} (hx : Follows x into result)
    (hf : ∀ a, result = .ok a → Follows (f (into a)) into' (g a)) :
    Follows (x >>= f) into' (result >>= g) := by
  intro objects hobjects d objects'
  rw [StateT.run_bind, bind_eq_ok]
  constructor
  · rintro ⟨⟨b, after⟩, hb, hd⟩
    obtain ⟨rfl, a, ha, rfl⟩ := (hx objects hobjects b after).mp hb
    obtain ⟨hobjects', c, hc, hd⟩ := (hf a ha after hobjects d objects').mp hd
    exact ⟨hobjects', c, bind_eq_ok.mpr ⟨a, ha, hc⟩, hd⟩
  · rintro ⟨rfl, c, hc, rfl⟩
    obtain ⟨a, ha, hc⟩ := bind_eq_ok.mp hc
    exact ⟨(into a, objects'), (hx objects' hobjects _ _).mpr ⟨rfl, a, ha, rfl⟩,
      (hf a ha objects' hobjects _ _).mpr ⟨rfl, c, hc, rfl⟩⟩

/-- Only the results of a function count, not the faults. -/
theorem congr {x : Visit β} {result result' : Except Fault α}
    (h : ∀ a, result = .ok a ↔ result' = .ok a) (hx : Follows x into result) :
    Follows x into result' := by
  intro objects hobjects b objects'
  rw [hx objects hobjects]
  exact and_congr_right fun _ => exists_congr fun a => and_congr_left fun _ => h a

/-- The last step changes the result. -/
theorem map {x : Visit β} {result : Except Fault α} (hx : Follows x into result)
    {f : β → δ} {g : α → γ} (hf : ∀ a, f (into a) = into' (g a)) :
    Follows (do Pure.pure (f (← x))) into' (do Pure.pure (g (← result))) :=
  hx.bind fun a _ => pure (g a) (hf a)

/-- A list of steps. -/
theorem mapM {step : β → Visit δ} {f : α → Except Fault γ} {xs : List α}
    (h : ∀ x ∈ xs, Follows (step (into x)) into' (f x)) :
    Follows ((xs.map into).mapM step) (List.map into') (xs.mapM f) := by
  induction xs with
  | nil => exact pure [] rfl
  | cons x xs ih =>
      obtain ⟨hx, hxs⟩ := List.forall_mem_cons.mp h
      rw [List.map_cons, List.mapM_cons, List.mapM_cons]
      exact hx.bind fun y _ => (ih hxs).map fun ys => rfl

end Follows

/-- Without changes every object is as it is written. -/
theorem settleTo_of_unchanged {objects : Objects} (h : objects.changed = [])
    (depth : Nat) (v : AnchoredValue) :
    objects.settleTo depth v = v := by
  induction depth generalizing v with
  | zero => rfl
  | succ depth ih =>
      have hlatest : ∀ mark ms, objects.latest mark ms = ms := fun mark ms => by
        cases mark <;> simp [Objects.latest, h]
      have hparts : objects.settleTo depth = id := funext ih
      cases v <;> simp [Objects.settleTo, hparts, hlatest]

theorem settled_follows (ms : Members) :
    Follows (settled (ofMembers ms)) ofMembers (.ok ms) := by
  intro objects hobjects b objects'
  have hsettled : (settled (ofMembers ms)).run objects =
      (pure (ofMembers ms) : Visit AnchoredMembers).run objects := by
    show Except.ok (objects.settleMembers (ofMembers ms), objects) =
      Except.ok (ofMembers ms, objects)
    simp [Objects.settleMembers, Objects.settle, settleTo_of_unchanged hobjects]
  rw [hsettled]
  exact Follows.pure ms rfl objects hobjects b objects'

/-- Looking at objects as they are at the moment makes no difference. -/
theorem Follows.settled {into : γ → δ} {f : AnchoredMembers → Visit δ} {ms : Members}
    {result : Except Fault γ} (h : Follows (f (ofMembers ms)) into result) :
    Follows (do f (← Sharing.settled (ofMembers ms))) into result := by
  show Follows _ into (Except.ok ms >>= fun _ => result)
  refine (settled_follows ms).bind fun _ hms => ?_
  obtain rfl := Except.ok.inj hms
  exact h

theorem current_follows (ms : Members) :
    Follows (current none (ofMembers ms)) ofMembers (.ok ms) := by
  intro objects hobjects b objects'
  exact settled_follows ms objects hobjects b objects'

/-! ### Changes of objects -/

section

variable {change : AnchoredMembers → Visit AnchoredMembers}
  {g : Members → Except Fault Members}

/-- An object without an anchor is changed by a change of its members. -/
theorem changeObject_follows {v : Value}
    (h : ∀ ms, v = .object ms → Follows (change (ofMembers ms)) ofMembers (g ms)) :
    Follows (changeObject change (ofValue v)) ofValue (withinAny g v) := by
  cases v with
  | marked mark ms =>
      show Follows _ ofValue (Except.ok ms >>= fun ms => do pure (.object (← g ms)))
      refine (current_follows ms).bind fun _ hms => ?_
      obtain rfl := Except.ok.inj hms
      refine (h _ rfl).bind fun ns _ => ?_
      show Follows (do note none (ofMembers ns); pure (ofValue (.object ns))) _ _
      rw [note, pure_bind]
      exact Follows.pure _ rfl
  | _ => exact Follows.pure _ rfl

theorem changeMembers_follows {v : Value}
    (h : ∀ ms, v = .object ms → Follows (change (ofMembers ms)) ofMembers (g ms)) :
    Follows (changeMembers change (ofValue v)) ofValue
      (do pure (.object (← g (← v.members)))) := by
  cases v with
  | marked mark ms => exact changeObject_follows h
  | _ => exact Follows.fault _ _

theorem changeAnyMembers_follows {v : Value}
    (h : ∀ ms, v = .object ms → Follows (change (ofMembers ms)) ofMembers (g ms)) :
    Follows (changeAnyMembers change (ofValue v)) ofValue
      (if v.isObject then withinAny g v else if v.isBlank then pure v else throw
        .notAnObject) := by
  rw [changeAnyMembers, isObject_ofValue, isBlank_ofValue]
  split
  · exact changeObject_follows h
  · split
    · exact Follows.pure v rfl
    · exact Follows.fault _ _

theorem mapValuesM_follows {visit : AnchoredValue → Visit AnchoredValue}
    {f : Value → Except Fault Value} {ms : Members}
    (h : ∀ e ∈ ms, Follows (visit (ofValue e.2)) ofValue (f e.2)) :
    Follows (Members.mapValuesM visit (ofMembers ms)) ofMembers
      (Members.mapValuesM f ms) := by
  induction ms with
  | nil => exact Follows.pure [] rfl
  | cons e rest ih =>
      obtain ⟨hfirst, hrest⟩ := List.forall_mem_cons.mp h
      exact hfirst.bind fun w _ => (ih hrest).map fun others => rfl

theorem modifyM_follows {name : Scalar} {visit : AnchoredValue → Visit AnchoredValue}
    {f : Value → Except Fault Value} {ms : Members}
    (h : ∀ v, Members.get? name ms = some v →
      Follows (visit (ofValue v)) ofValue (f v)) :
    Follows (Members.modifyM name visit (ofMembers ms)) ofMembers
      (Members.modifyM name f ms) := by
  induction ms with
  | nil => exact Follows.pure [] rfl
  | cons e rest ih =>
      obtain ⟨k, v⟩ := e
      rw [Members.modifyM, ← ofMembers_cons, Members.modifyM]
      split
      · exact (h v (if_pos ‹_›)).map fun w => rfl
      · exact (ih fun w hw => h w ((if_neg ‹_›).trans hw)).map fun others => rfl

end

/-! ### Members under certain names -/

/-- Members with every value under one of certain names changed. -/
def changeWhere (p : Scalar → Bool) (f : Value → Except Fault Value) (ms : Members) :
    Except Fault Members :=
  ms.mapM fun e => if p e.1 then do pure (e.1, ← f e.2) else pure e

section

variable {p q : Scalar → Bool} {f : Value → Except Fault Value} {ms ns : Members}

theorem changeWhere_eq_ok :
    changeWhere p f ms = .ok ns ↔ Members.Aligned (fun name v w => if p name then f v =
      .ok w else v = w) ms ns := by
  rw [changeWhere, mapM_eq_ok_iff, Members.Aligned]
  have hstep : ∀ e e' : Scalar × Value,
      (if p e.1 then do pure (e.1, ← f e.2) else pure e) = Except.ok e' ↔
      e.1 = e'.1 ∧ if p e.1 then f e.2 = .ok e'.2 else e.2 = e'.2 := fun e e' => by
    obtain ⟨k, v⟩ := e
    obtain ⟨k', w⟩ := e'
    split
    · cases hfv : f v <;> simp
    · simp
  simp only [hstep]

/-- Members are changed in two steps at different names, or in one. -/
theorem changeWhere_twice (hapart : ∀ name, p name = true → q name = false) :
    (do changeWhere q f (← changeWhere p f ms) : Except Fault Members) = .ok ns ↔
      changeWhere (fun name => p name || q name) f ms = .ok ns := by
  have hstep : ∀ e : Scalar × Value,
      ((if p e.1 then do pure (e.1, ← f e.2) else pure e) >>= fun e =>
        if q e.1 then do pure (e.1, ← f e.2) else pure e) = if p e.1 ||
        q e.1 then do pure (e.1, ← f e.2) else pure e := fun e => by
    cases hp : p e.1 with
    | true =>
        have hq := hapart e.1 hp
        cases f e.2 <;> simp [hq]
    | false => rfl
  simp only [changeWhere, mapM_mapM_eq_ok, hstep]

theorem changeUnder_follows {name : Scalar}
    {change : AnchoredValue → Visit AnchoredValue} (h : ∀ e ∈ ms, e.1.same name = true →
      Follows (change (ofValue e.2)) ofValue (f e.2)) :
    Follows (changeUnder name change (ofMembers ms)) ofMembers
      (changeWhere (·.same name) f ms) := by
  rw [changeUnder, changeWhere, ofMembers_eq_map, show ofMembers =
    List.map _ from funext ofMembers_eq_map]
  refine Follows.mapM fun e he => ?_
  split
  · exact (h e he ‹_›).map fun w => rfl
  · exact Follows.pure e rfl

/-- Visits of members under several names, one after the other. -/
theorem foldlM_changeUnder_follows {methods : List Method} (hmethods : methods.Nodup)
    {change : AnchoredValue → Visit AnchoredValue}
    (h : ∀ e ∈ ms, (methods.any fun method => e.1.same method.name) = true →
      Follows (change (ofValue e.2)) ofValue (f e.2)) :
    Follows (methods.foldlM (fun ms method => changeUnder method.name change ms)
      (ofMembers ms)) ofMembers (changeWhere (fun name => methods.any fun method =>
      name.same method.name) f ms) := by
  induction methods generalizing ms with
  | nil =>
      have hsame : changeWhere (fun _ => false) f ms = .ok ms :=
        changeWhere_eq_ok.mpr (Members.Aligned.refl fun _ _ => rfl)
      exact Follows.congr (fun ns => by rw [pure_eq_ok, ← hsame]; rfl)
        (Follows.pure ms rfl)
  | cons method rest ih =>
      obtain ⟨hmethod, hrest⟩ := List.nodup_cons.mp hmethods
      have hapart : ∀ name : Scalar, name.same method.name = true →
          (rest.any fun method => name.same method.name) = false := by
        intro name hname
        obtain rfl := Scalar.same_str_iff.mp hname
        refine List.any_eq_false.mpr fun other hother hsame => hmethod ?_
        rwa [Method.name_injective (Scalar.str.inj (Scalar.same_str_iff.mp hsame))]
      refine Follows.congr (fun ns => changeWhere_twice hapart)
        (Follows.bind (changeUnder_follows fun e he hname => h e he (by simp [hname]))
          fun ns hns => ?_)
      refine ih hrest fun e he hname => ?_
      obtain ⟨v, hv, hvalue⟩ := (changeWhere_eq_ok.mp hns).mem_right he
      have hother : ¬ e.1.same method.name = true := fun hsame => by
        simp [hapart e.1 hsame] at hname
      rw [if_neg hother] at hvalue
      exact h e (by rwa [hvalue] at hv) (by simp [hname])

end

/-! ### Path items -/

section

variable {edit : Edit} {edit' : PathItemEdit}

/-- An edit of path items with anchors that does to objects without them what another
one does to values. -/
structure Edit.Matches (edit : Edit) (edit' : PathItemEdit) : Prop where
  operation : ∀ item op, edit.operation (ofMembers item) (ofMembers op) =
    ofMembers <$> edit'.operation item op
  item : ∀ item, edit.item (ofMembers item) = ofMembers (edit'.item item)
  passesCallbacks : edit'.PassesCallbacks

theorem completion_matches : completion.Matches Document.completion where
  operation := completeOperation_ofMembers
  item := erase_ofMembers "parameters"
  passesCallbacks := PathItemEdit.completion_passesCallbacks

theorem pruning_matches : pruning.Matches Document.pruning where
  operation _ := pruneOperation_ofMembers
  item _ := rfl
  passesCallbacks := PathItemEdit.pruning_passesCallbacks

/-- A map of paths is edited entry by entry. -/
private theorem pathItems_eq (ms : Members) :
    edit'.pathItems ms = Members.mapValuesM edit'.editItem ms := by
  induction ms with
  | nil => rfl
  | cons e rest ih =>
      obtain ⟨k, v⟩ := e
      cases v with
      | marked mark item =>
          rw [PathItemEdit.pathItems, ih, Members.mapValuesM, PathItemEdit.editItem]
          cases edit'.operations item item <;> rfl
      | _ =>
          rw [PathItemEdit.pathItems, ih, Members.mapValuesM, PathItemEdit.editItem] <;>
            simp

/-- A map of callbacks is edited entry by entry. -/
private theorem callbackEntries_eq (ms : Members) :
    edit'.callbackEntries ms = Members.mapValuesM (withinAny edit'.pathItems) ms := by
  induction ms with
  | nil => rfl
  | cons e rest ih =>
      obtain ⟨k, v⟩ := e
      cases v with
      | marked mark inner =>
          rw [PathItemEdit.callbackEntries, ih, Members.mapValuesM, withinAny]
          cases edit'.pathItems inner <;> rfl
      | _ =>
          rw [PathItemEdit.callbackEntries, ih, Members.mapValuesM, withinAny] <;> simp

/-- What stands in an object is less deep than the object. -/
private theorem height_lt_of_mem {ms : Members} {e : Scalar × Value} (he : e ∈ ms) :
    e.2.height < (Value.object ms).height := by
  have hmembers : e.2.height ≤ Tree.membersHeight ms := by
    induction ms with
    | nil => contradiction
    | cons e' rest ih =>
        rw [Tree.membersHeight]
        rcases List.mem_cons.mp he with rfl | he
        · exact Nat.le_max_left _ _
        · exact Nat.le_trans (ih he) (Nat.le_max_right _ _)
  rw [Tree.height]
  omega

/-- Callbacks, if the path items inside them are visited as they are edited. -/
private theorem callbacks_follows {visit : AnchoredValue → Visit AnchoredValue}
    {depth : Nat} (hvisit : ∀ v, v.height ≤ depth → Follows (visit (ofValue v)) ofValue
      (edit'.editItem v)) {v : Value} (hv : v.height ≤ depth) :
    Follows (changeAnyMembers
      (Members.mapValuesM (changeObject (Members.mapValuesM visit))) (ofValue v))
      ofValue (edit'.callbacks v) := by
  have hentries : ∀ ms, v = .object ms →
      Follows (Members.mapValuesM (changeObject (Members.mapValuesM visit))
        (ofMembers ms)) ofMembers (edit'.callbackEntries ms) := by
    rintro ms rfl
    rw [callbackEntries_eq]
    refine mapValuesM_follows fun e he => changeObject_follows fun inner hinner => ?_
    rw [pathItems_eq]
    refine mapValuesM_follows fun e' he' => hvisit _ ?_
    have hcallback := height_lt_of_mem he
    have hitem := height_lt_of_mem he'
    rw [hinner] at hcallback
    omega
  refine (changeAnyMembers_follows hentries).congr fun w => ?_
  cases v with
  | marked mark ms => rfl
  | _ => rw [PathItemEdit.callbacks] <;> simp [Tree.isObject]

/-- An operation, if the path items inside its callbacks are visited as they are
edited. -/
private theorem visitOperation_follows (hmatches : edit.Matches edit')
    {visit : AnchoredValue → Visit AnchoredValue} {depth : Nat} (hvisit : ∀ v,
      v.height ≤ depth → Follows (visit (ofValue v)) ofValue (edit'.editItem v))
    (item : Members) {v : Value} (hv : v.height ≤ depth) :
    Follows (edit.visitOperation visit (ofMembers item) (ofValue v)) ofValue
      (withinAny (fun op => do edit'.operation item (← edit'.nested op)) v) := by
  refine changeObject_follows fun op hop => ?_
  refine Follows.congr (fun _ =>
    PathItemEdit.operation_then_nested hmatches.passesCallbacks) ?_
  refine Follows.settled ?_
  rw [hmatches.operation]
  refine (Follows.lift _).bind fun op' hop' => ?_
  refine Follows.congr (fun ns => ?_) (changeUnder_follows fun e he hname =>
    callbacks_follows hvisit ?_)
  · rw [changeWhere_eq_ok, PathItemEdit.nested_iff]
    refine iff_of_eq (congrArg (Members.Aligned · op' ns) ?_)
    funext name v w
    rw [PathItemEdit.editPart]
    split <;> simp
  · obtain ⟨k, callbacks⟩ := e
    obtain rfl := Scalar.same_str_iff.mp hname
    have hop₀ :=
      height_lt_of_mem ((hmatches.passesCallbacks.keeps _ op op' hop' callbacks).mp he)
    rw [hop] at hv
    exact Nat.le_trans (Nat.le_of_lt hop₀) hv

/-- Path items are visited as they are edited. -/
theorem visitItem_follows (hmatches : edit.Matches edit') (depth : Nat) (v : Value)
    (hv : v.height ≤ depth) :
    Follows (edit.visitItem depth (ofValue v)) ofValue (edit'.editItem v) := by
  induction depth generalizing v with
  | zero =>
      cases v with
      | marked mark ms => simp [Tree.height] at hv
      | _ => exact Follows.pure _ rfl
  | succ depth ih =>
      have hmember : ∀ item e, v = .object item → e ∈ item →
          Tree.height e.2 ≤ depth := by
        rintro item e rfl he
        exact Nat.le_of_lt_succ (Nat.lt_of_lt_of_le (height_lt_of_mem he) hv)
      have hoperations : ∀ item, v = .object item →
          Follows (Method.all.foldlM (fun ms method =>
            changeUnder method.name
              (edit.visitOperation (edit.visitItem depth) (ofMembers item)) ms)
            (ofMembers item)) ofMembers (edit'.operations item item) := by
        intro item hitem
        refine Follows.congr (fun ns => ?_)
            (foldlM_changeUnder_follows (by decide) fun e he _ =>
          visitOperation_follows hmatches ih item (hmember item e hitem he))
        rw [changeWhere_eq_ok, PathItemEdit.operations_iff]
        refine iff_of_eq (congrArg (Members.Aligned · item ns) ?_)
        funext name x y
        show (if isMethod name then _ else _) = _
        cases x with
        | marked mark op =>
            rw [PathItemEdit.editMember, withinAny]
            split <;> simp
        | _ => split <;> simp [PathItemEdit.editMember, withinAny]
      refine Follows.congr (fun w => ?_) (changeObject_follows fun item hitem =>
        (hoperations item hitem).bind fun changed _ =>
          (settled_follows changed).map hmatches.item)
      cases v with
      | marked mark item =>
          rw [withinAny, PathItemEdit.editItem]
          cases edit'.operations item item <;> rfl
      | _ => rfl

end

/-! ### Tags -/

/-- Tags that are objects, changed in a list or a pair. -/
def tagsChanged (g : Members → Except Fault Members) : Value → Except Fault Value
  | .list tags => do pure (.list (← tags.mapM (withinAny g)))
  | .pair a b => do
    let first ← withinAny g a
    pure (.pair first (← withinAny g b))
  | v => do
    let _ ← v.itemsOrNone
    pure v

theorem changeTags_follows {change : AnchoredMembers → Except Fault AnchoredMembers}
    {g : Members → Except Fault Members}
    (hchange : ∀ tag, change (ofMembers tag) = ofMembers <$> g tag) (v : Value) :
    Follows (changeTags change (ofValue v)) ofValue (tagsChanged g v) := by
  have htag : ∀ tag, Follows (changeObject (fun ms => change ms) (ofValue tag)) ofValue
      (withinAny g tag) := fun tag =>
    changeObject_follows fun ms _ => by
      rw [hchange]
      exact Follows.lift _
  have hother : Follows (do
      let _ ← ((ofValue v).itemsOrNone : Except Fault (List AnchoredValue))
      pure (ofValue v) : Visit AnchoredValue) ofValue (do
        let _ ← v.itemsOrNone
        pure v) := by
    rw [itemsOrNone_ofValue]
    exact (Follows.lift _).bind fun _ _ => Follows.pure v rfl
  cases v with
  | list tags =>
      rw [← ofValue_list]
      exact (Follows.mapM fun tag _ => htag tag).map ofValue_list
  | pair a b =>
      rw [← ofValue_pair]
      exact (htag a).bind fun first _ => (htag b).map fun second => rfl
  | _ => exact hother

theorem tagsChanged_completeTag (v : Value) :
    tagsChanged (fun tag => pure (completeTag tag)) v = completeTags v := by
  have htag : withinAny (fun tag => pure (completeTag tag)) = fun tag =>
    .ok (completeAnyTag tag) := by
    funext tag
    cases tag <;> rfl
  have htags : ∀ tags : List Value,
      tags.mapM (fun tag => (.ok (completeAnyTag tag) : Except Fault Value)) =
      .ok (tags.map completeAnyTag) := fun tags => mapM_eq_ok_iff.mpr (by simp)
  cases v with
  | list tags => rw [tagsChanged, htag, htags]; rfl
  | pair a b => rw [tagsChanged, htag]; rfl
  | _ =>
      rw [tagsChanged, completeTags, Tree.itemsOrNone]
      · split <;> rfl
      all_goals simp

theorem tagsChanged_pruneTag (v : Value) : tagsChanged pruneTag v = pruneTags v := by
  cases v with
  | list tags => rfl
  | pair a b => rfl
  | _ =>
      rw [tagsChanged, pruneTags, Tree.itemsOrNone]
      · split <;> rfl
      all_goals simp

/-! ### Documents -/

theorem height_ofValue (v : Value) : (ofValue v).height = v.height := by
  induction v using Tree.parts_induction with
  | list xs ih =>
      have hitems : ∀ ys : List Value, (∀ y ∈ ys, (ofValue y).height = y.height) →
          Tree.itemsHeight (ys.map ofValue) = Tree.itemsHeight ys := fun ys hys => by
        induction ys with
        | nil => rfl
        | cons y ys ih' =>
            rw [List.map_cons, Tree.itemsHeight, Tree.itemsHeight, hys y (by simp),
              ih' fun y hy => hys y (by simp [hy])]
      rw [← ofValue_list, Tree.height, Tree.height, hitems xs ih]
  | pair a b iha ihb => rw [← ofValue_pair, Tree.height, Tree.height, iha, ihb]
  | marked mark ms ih =>
      have hmembers : ∀ ns : Members, (∀ e ∈ ns, (ofValue e.2).height = e.2.height) →
          Tree.membersHeight (ofMembers ns) = Tree.membersHeight ns := fun ns hns => by
        induction ns with
        | nil => rfl
        | cons e ns ih' =>
            obtain ⟨k, v⟩ := e
            rw [← ofMembers_cons, Tree.membersHeight, Tree.membersHeight,
              hns (k, v) (by simp), ih' fun e he => hns e (by simp [he])]
      rw [← ofValue_object, Tree.height, Tree.height, hmembers ms ih]
  | _ => rfl

/-- A document without anchors is changed by a visit that follows a function on
values. -/
theorem changed_ofValue_iff
    {change : (depth : Nat) → AnchoredMembers → Visit AnchoredMembers}
    {document : Value} {result : Except Fault Value} (h : Follows
      (changeMembers (change document.height) (ofValue document)) ofValue result)
    {w : AnchoredValue} :
    changed change (ofValue document) = .ok w ↔ ∃ v, result = .ok v ∧
      w = ofValue v := by
  have hrun := h (.unchanged (ofValue document)) rfl
  rw [changed, height_ofValue, bind_eq_ok]
  constructor
  · rintro ⟨⟨b, objects⟩, hb, hw⟩
    obtain ⟨rfl, v, hv, rfl⟩ := (hrun b objects).mp hb
    obtain rfl := Except.ok.inj hw
    exact ⟨v, hv, settleTo_of_unchanged rfl _ _⟩
  · rintro ⟨v, hv, rfl⟩
    exact ⟨_, (hrun (ofValue v) _).mpr ⟨rfl, v, hv, rfl⟩,
      congrArg Except.ok (settleTo_of_unchanged rfl _ _)⟩

/-- Members of an object that are changed by a function on members. -/
theorem changeMembers_pure_follows {change : AnchoredMembers → AnchoredMembers}
    {g : Members → Members} (hchange : ∀ ms, change (ofMembers ms) = ofMembers (g ms))
    (v : Value) :
    Follows (changeMembers (fun ms => pure (change ms)) (ofValue v)) ofValue
      (withinObject g v) :=
  have h : ∀ ms, v = .object ms →
      Follows (pure (change (ofMembers ms))) ofMembers (pure (g ms)) := fun ms _ =>
    Follows.pure (g ms) (hchange ms)
  (changeMembers_follows h).congr fun w => by cases v <;> rfl

/-- The paths of a document, which are no deeper than the document. -/
theorem paths_follows {edit : Edit} {edit' : PathItemEdit}
    (hmatches : edit.Matches edit') {depth : Nat} {v : Value} (hv : v.height ≤ depth)
    {ms : Members} (hms : v = .object ms) :
    Follows (Members.mapValuesM (edit.visitItem depth) (ofMembers ms)) ofMembers
      (edit'.pathItems ms) := by
  subst hms
  rw [pathItems_eq]
  exact mapValuesM_follows fun e he =>
    visitItem_follows hmatches depth e.2
      (Nat.le_trans (Nat.le_of_lt (height_lt_of_mem he)) hv)

/-- The paths of a document are less deep than the document, also if there were none. -/
private theorem height_paths_le
    {depth : Nat} {ms ns : Members} (hms : (Value.object ms).height ≤ depth)
    (hns : Members.get? "paths" ns = Members.get? "paths" ms)
    {v : Value} (hv : Members.get? "paths" (fill "paths" .emptyObject ns) = some v) :
    v.height ≤ depth := by
  have hempty : (Value.object []).height ≤ depth :=
    Nat.le_trans (Nat.le_add_left 1 _) hms
  rw [get?_fill_self, hns] at hv
  obtain rfl := Option.some.inj hv
  unfold Tree.orElse
  split
  · exact hempty
  · cases hget : Members.get? "paths" ms with
    | none => simp_all [Tree.isBlank, Scalar.isBlank]
    | some w =>
        have hlt := height_lt_of_mem (Members.mem_of_get?_str hget)
        exact Nat.le_trans (Nat.le_of_lt hlt) hms

theorem completeMembers_follows {depth : Nat} {ms : Members}
    (hms : (Value.object ms).height ≤ depth) :
    Follows (completeMembers depth (ofMembers ms)) ofMembers (do
      let ms ← Members.modifyM "tags" completeTags ms
      let ms ← Members.modifyM "info" (withinObject completeInfo)
        (fill "info" untitledInfo ms)
      let ms := fill "externalDocs" .emptyObject ms
      let ms := fill "security" (.list []) ms
      let ms := fill "servers" (.list []) ms
      let ms := fill "paths" .emptyObject ms
      let ms ← Members.modifyM "components" (withinObject completeComponents)
        (fill "components" .emptyObject ms)
      let ms ← Members.modifyM "paths" Document.completion.apply ms
      pure (fill "openapi" defaultVersion ms)) := by
  have huntitled : ∀ ms : Members, fill "info" untitledInfo (ofMembers ms) =
      ofMembers (fill "info" untitledInfo ms) :=
    fill_ofMembers "info" untitledInfo
  have hversion : ∀ ms : Members, fill "openapi" (.str defaultVersion) (ofMembers ms) =
      ofMembers (fill "openapi" (.str defaultVersion) ms) :=
        fill_ofMembers "openapi" (.str defaultVersion)
  refine (modifyM_follows fun v _ => ?_).bind fun ms₁ htags => Follows.settled ?_
  · rw [← tagsChanged_completeTag]
    exact changeTags_follows (fun tag => congrArg Except.ok (completeTag_ofMembers tag))
      v
  simp only [huntitled]
  refine (modifyM_follows fun v _ => ?_).bind fun ms₂ hinfo => Follows.settled ?_
  · exact changeMembers_pure_follows completeInfo_ofMembers v
  simp only [fill_emptyObject, fill_emptyList]
  refine (modifyM_follows fun v _ => ?_).bind fun ms₃ hcomponents => ?_
  · exact changeMembers_pure_follows completeComponents_ofMembers v
  refine (modifyM_follows fun v hv => ?_).bind fun ms₄ _ => Follows.settled ?_
  · have hdepth : v.height ≤ depth := by
      rw [Members.get?_modifyM_of_ne (by decide) hcomponents,
        get?_fill_of_ne (by decide)] at hv
      refine height_paths_le hms ?_ hv
      rw [get?_fill_of_ne (by decide), get?_fill_of_ne (by decide),
        get?_fill_of_ne (by decide), Members.get?_modifyM_of_ne (by decide) hinfo,
        get?_fill_of_ne (by decide), Members.get?_modifyM_of_ne (by decide) htags]
    exact changeMembers_follows fun paths hpaths =>
      paths_follows completion_matches hdepth hpaths
  · rw [hversion]
    exact Follows.pure _ rfl

/-- A document without anchors is completed as a value is. -/
theorem complete_ofValue_iff {document : Value} {w : AnchoredValue} :
    complete (ofValue document) = .ok w ↔ ∃ v, Document.complete document = .ok v ∧
      w = ofValue v := by
  refine changed_ofValue_iff
      (Follows.congr (fun v => ?_) (changeMembers_follows fun ms hms =>
    completeMembers_follows (Nat.le_of_eq (hms ▸ rfl))))
  cases document with
  | marked mark ms =>
      simp only [Document.complete, Tree.members, pure_eq_ok, ok_bind, bind_assoc]
  | _ => rfl

/-- Pruning the paths of a document. -/
private theorem prunePaths_follows {depth : Nat} {v : Value} (hv : v.height ≤ depth) :
    Follows
      (changeAnyMembers (Members.mapValuesM (pruning.visitItem depth)) (ofValue v))
      ofValue (if v.isBlank then pure v else Document.pruning.apply v) := by
  refine (changeAnyMembers_follows fun ms hms =>
    paths_follows pruning_matches hv hms).congr fun w => ?_
  cases v with
  | marked mark ms => cases ms <;> rfl
  | _ => rfl

/-- Pruning the components of a document with other members. -/
private theorem componentsPruned_follows (components ms : Members) :
    Follows (do
      let parts ← changeObject (fun parts => pure (pruneComponents parts))
        (ofValue (.object components))
      pure (dropBlank "components" (Members.put "components" parts (ofMembers ms))))
      ofMembers
      (pure (dropBlank "components"
        (Members.put "components" (.object (pruneComponents components)) ms))) := by
  have hchanged : Follows (changeObject (fun parts => pure (pruneComponents parts))
      (ofValue (.object components))) ofValue
      (withinAny (fun parts => pure (pruneComponents parts)) (.object components)) :=
    changeObject_follows fun parts _ =>
      Follows.pure _ (pruneComponents_ofMembers parts)
  have hput : ∀ v, dropBlank "components"
      (Members.put "components" (ofValue v) (ofMembers ms)) =
      ofMembers (dropBlank "components" (Members.put "components" v ms)) := fun v => by
    rw [put_ofMembers, dropBlank_ofMembers]
  refine Follows.congr ?_ (hchanged.map hput)
  exact fun _ => Iff.rfl

theorem pruneMembers_follows {depth : Nat} {ms : Members}
    (hms : (Value.object ms).height ≤ depth) :
    Follows (pruneMembers depth (ofMembers ms)) ofMembers (do
      let ms ← Members.modifyM "paths"
        (fun paths => if paths.isBlank then pure paths
          else Document.pruning.apply paths) ms
      let ms ← Members.modifyM "tags" pruneTags ms
      let ms ← dropUnless "externalDocs" ["url"] ms
      let ms ← Members.modifyM "info" (withinAny pruneInfo) ms
      let ms := dropBlank "tags" (dropBlank "servers" (dropBlank "security" ms))
      match Members.get? "components" ms with
      | some (.object components) =>
        pure (dropBlank "components"
          (Members.put "components" (.object (pruneComponents components)) ms))
      | _ => pure ms) := by
  refine (modifyM_follows fun v hv => ?_).bind fun ms₁ _ => ?_
  · exact prunePaths_follows
      (Nat.le_trans (Nat.le_of_lt (height_lt_of_mem (Members.mem_of_get?_str hv))) hms)
  refine (modifyM_follows fun v _ => ?_).bind fun ms₂ _ => Follows.settled ?_
  · rw [← tagsChanged_pruneTag]
    exact changeTags_follows (fun tag =>
      dropUnless_ofMembers "externalDocs" tag ["url"]) v
  rw [dropUnless_ofMembers]
  refine (Follows.lift _).bind fun ms₃ _ =>
    (modifyM_follows fun v _ => ?_).bind fun ms₄ _ => Follows.settled ?_
  · refine changeObject_follows fun info _ => ?_
    rw [pruneInfo_ofMembers]
    exact Follows.lift _
  simp only [dropBlank_ofMembers, get?_ofMembers]
  generalize dropBlank "tags" (dropBlank "servers" (dropBlank "security" ms₄)) = ns
  cases Members.get? "components" ns with
  | none => exact Follows.pure _ rfl
  | some v =>
      cases v with
      | marked mark components => exact componentsPruned_follows components ns
      | _ => exact Follows.pure _ rfl

/-- A document without anchors is pruned as a value is. -/
theorem prune_ofValue_iff {document : Value} {w : AnchoredValue} :
    prune (ofValue document) = .ok w ↔ ∃ v, Document.prune document = .ok v ∧
      w = ofValue v := by
  refine changed_ofValue_iff
      (Follows.congr (fun v => ?_) (changeMembers_follows fun ms hms =>
    pruneMembers_follows (Nat.le_of_eq (hms ▸ rfl))))
  cases document with
  | marked mark ms =>
      simp only [Document.prune, Tree.members, pure_eq_ok, ok_bind, bind_assoc]
      refine Eq.congr ?_ rfl
      refine bind_congr fun ms₁ => bind_congr fun ms₂ => bind_congr fun ms₃ =>
        bind_congr fun ms₄ => ?_
      cases Members.get? "components"
        (dropBlank "tags" (dropBlank "servers" (dropBlank "security" ms₄))) with
      | none => rfl
      | some parts => cases parts <;> rfl
  | _ => rfl

/-! ### What becomes of documents whose objects stand in one place each -/

/-- A document in which both a path and a path item in a callback share parameters
with an operation that has some of its own, among them one that is repeated and one
that is no object. -/
def nestedSharing : Value :=
  let sharing (callbacks : Value) : Value :=
    .record [
      ("parameters", .list [.record [("name", "q"), ("in", "query")],
        .record [("name", "r"), ("in", "query")]]),
      ("get", .record [
        ("parameters", .list ["p", .record [("name", "q"), ("in", "query")],
          .record [("name", "q"), ("in", "query")]]),
        ("callbacks", callbacks)])]
  .record [("paths",
    .record [("/a", sharing (.record [("c", .record [("/b", sharing .null)])]))])]

/-- One completion is enough: it gives a complete document, and another one ends without
a fault and changes nothing there, not even the order of the members. -/
theorem complete_settles {document : Value} {result : AnchoredValue}
    (h : complete (ofValue document) = .ok result) :
    complete result = .ok result ∧ ∃ ms, result = ofValue (.object ms) ∧
      Complete ms := by
  obtain ⟨v, hv, rfl⟩ := complete_ofValue_iff.mp h
  obtain ⟨ms, rfl, hms⟩ := complete_of_ok hv
  exact ⟨complete_ofValue_iff.mpr ⟨_, complete_fixed hms, rfl⟩, ms, rfl, hms⟩

/-- A document with shared parameters in a path and in a callback is settled by
one completion. -/
theorem complete_settles_of_nestedSharing :
    ∃ result, complete (ofValue nestedSharing) = .ok result ∧
      complete result = .ok result ∧ ∃ ms, result = ofValue (.object ms) ∧
        Complete ms := by
  have hruns : ∃ result, complete (ofValue nestedSharing) = .ok result :=
    ⟨_, complete_ofValue_iff.mpr ⟨_, rfl, rfl⟩⟩
  obtain ⟨result, hcomplete⟩ := hruns
  exact ⟨result, hcomplete, complete_settles hcomplete⟩

/-- The members of a document in which one object is the path item `/a` and an
operation of `/b`. As the operation it takes in the parameters of `/b`, and as a path
item it then shares them. -/
def itemAndOperation : AnchoredMembers :=
  let both : AnchoredValue :=
    .marked (some ⟨0, []⟩) [("get", .record [("responses", .emptyObject)])]
  [("paths", .record [
    ("/a", both),
    ("/b", .record [("parameters", .list [.record [("name", "p"), ("in", "query")]]),
      ("get", both)])])]

/-- A document is not settled by one completion where one object is a path item
and an operation. -/
theorem complete_unsettled :
    ∃ once twice, complete (.object itemAndOperation) = .ok once ∧
      complete once = .ok twice ∧ twice ≠ once := by
  have hruns : (do
      let once ← complete (.object itemAndOperation)
      let twice ← complete once
      pure (once.same once && !twice.same once)).toOption =
        some true := by decide +kernel
  obtain ⟨once, honce, hruns⟩ := bind_eq_ok.mp (toOption_eq_some.mp hruns)
  obtain ⟨twice, htwice, hruns⟩ := bind_eq_ok.mp hruns
  refine ⟨once, twice, honce, htwice, ?_⟩
  rintro rfl
  simp at hruns

/-- The parameters of an operation of a document. -/
def parametersAt (path : String) (method : Method) (document : Value) :
    Except Fault Value := do
  (← (← (← document.member "paths").member path).member method.name).member "parameters"

/-- The parameters of an operation of a document after completion. -/
private theorem parametersAt_of_documentCompleted {ms ns paths item op : Members}
    (path : String) (method : Method) (h : DocumentCompleted ms ns)
    (hpaths : Members.get? "paths" ms = some (.object paths))
    (hitem : Members.get? path paths = some (.object item))
    (hop : Members.get? method.name item = some (.object op)) :
    ∃ shared own merged, Members.listAt "parameters" item = .ok shared ∧
      Members.listAt "parameters" op = .ok own ∧
      mergeParameters shared own = .ok merged ∧
      parametersAt path method (.object ns) = .ok (.list merged) := by
  obtain ⟨read, paths', hread, hpaths', hcompleted⟩ := h.paths
  have hne : paths ≠ [] := fun hnil => by simp [hnil] at hitem
  have hread' : Members.valueAt "paths" ms = .object paths := by
    rw [Members.valueAt, hpaths, Option.getD_some]
  obtain rfl : paths = read := by
    rw [hread', Tree.orElse, if_neg (by simp [Tree.isBlank, hne])] at hread
    exact (Tree.marked.inj hread).2
  obtain ⟨-, w, -, hw, item', rfl, hmembers⟩ :=
    (pathsCompleted_iff.mp hcompleted).get?_some hitem
  have hcut : Members.get? method.name (Members.erase "parameters" item) =
      some (.object op) := by
    rw [← hop, Members.get?_erase, if_neg (by cases method <;> decide)]
  obtain ⟨k, w', hk, hw', hbecome⟩ := Members.Aligned.get?_some hmembers hcut
  obtain rfl := Scalar.same_str_iff.mp hk
  rw [if_pos (isMethod_name method)] at hbecome
  obtain ⟨op', rfl, hop'⟩ := hbecome
  obtain ⟨shared, own, merged, hshared, hown, hmerged, -, hget⟩ := hop'.parameters
  refine ⟨shared, own, merged, hshared, hown, hmerged, ?_⟩
  simp [parametersAt, Tree.member, Tree.members, hpaths', hw, hw', hget]

/-- A parameter of the query. -/
private def queryParameter {μ : Type} [Inhabited μ] (name : String) : Tree μ :=
  .record [("name", name), ("in", "query")]

/-- One operation is that of `/a` and that of `/b`, which share different parameters. -/
def operationTwice : AnchoredValue :=
  let both : AnchoredValue := .marked (some ⟨0, []⟩) [("responses", .emptyObject)]
  let item (name : String) : AnchoredValue :=
    .record [("parameters", .list [queryParameter name]), ("get", both)]
  .record [("paths", .record [("/a", item "p"), ("/b", item "q")])]

/-- A document with needless parts in many places, among them an operation in a
callback, and with parts that are not needless. -/
def laden : Value :=
  let nested : Value := .record [("/b", .record [("post", .record [
    ("externalDocs", .record [("url", "")]), ("tags", .list []),
      ("x-note", .emptyObject)])])]
  .record [
    ("tags", .list [.record [("name", "a"), ("externalDocs", .emptyObject)], "b"]),
    ("info", .record [("title", "t"), ("license", .emptyObject),
      ("contact", .record [("email", "m")])]),
    ("servers", .list []),
    ("x-extra", .list []),
    ("paths", .record [("/a", .record [("get", .record [
      ("tags", .list ["b", "a", "b"]), ("callbacks", .record [("c", nested)])])])]),
    ("components", .record [("schemas", .emptyObject), ("links", .list [])])]

/-- One object is a tag and a member of the document. -/
def tagTwice : AnchoredValue :=
  let both : AnchoredValue :=
    .marked (some ⟨0, []⟩) [("name", "t"), ("externalDocs", .emptyObject)]
  .record [("tags", .list [both]), ("x-tag", both)]

end Sharing

end ApiWorkbench.Document
