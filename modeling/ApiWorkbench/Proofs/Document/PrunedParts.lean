import ApiWorkbench.Proofs.Document.OperationPlaces
import ApiWorkbench.Proofs.Document.Pruned
import ApiWorkbench.Proofs.Document.ShapeKept

/-!
# What a pruned document is made of

Pruning takes members away and joins tags that are the same. It never makes up a name,
and where a list was a text or an object, its items are the characters or the names of
that. So a document that is made of certain names and leaves is still made of these
after it was pruned (`MadeOf`), as long as every text may be a leaf.

## Main results

* `MadeOf.prune`: the pruned form of a document is made of what the document is made of.
-/

namespace ApiWorkbench.Document

/-- Values that have a property are made of texts and certain other leaves, in lists and
in objects, and the names of an object are texts of a certain kind, all different. -/
structure MadeOf (names : String → Prop) (P : Value → Prop) : Prop where
  text (s : String) : P (.str s)
  noTorn (text : Text.Torn) : ¬ P (.scalar (.torn text))
  noBytes (b : List UInt8) : ¬ P (.scalar (.bytes b))
  noPair (a b : Value) : ¬ P (.pair a b)
  noSet (ns : List Scalar) : ¬ P (.set ns)
  list (xs : List Value) : P (.list xs) ↔ ∀ x ∈ xs, P x
  object (ms : Members) : P (.object ms) ↔
    (∀ e ∈ ms, ∃ name, e.1 = .str name ∧ names name) ∧ (Members.names ms).Nodup ∧
      ∀ e ∈ ms, P e.2

namespace MadeOf

variable {ms ns : Members} {v w : Value} {names : String → Prop} {P : Value → Prop}
  (hP : MadeOf names P)

include hP

/-! ## Members -/

private theorem of_member (h : P (.object ms)) {name : Scalar}
    (hv : (name, v) ∈ ms) : P v :=
  ((hP.object ms).mp h).2.2 _ hv

private theorem of_sublist (h : P (.object ms)) (hns : ns.Sublist ms) :
    P (.object ns) := by
  obtain ⟨hnames, hnodup, hvalues⟩ := (hP.object ms).mp h
  refine (hP.object ns).mpr ⟨fun e he => hnames e (hns.subset he),
    hnodup.sublist (hns.map _), fun e he => ?_⟩
  exact hvalues e (hns.subset he)

/-- Values that are changed in their places keep the property, if each of them does. -/
private theorem of_aligned {R : Scalar → Value → Value → Prop} (h : P (.object ms))
    (hns : Members.Aligned R ms ns) (hR : ∀ k v w, (k, v) ∈ ms → P v → R k v w → P w) :
    P (.object ns) := by
  obtain ⟨hnames, hnodup, hvalues⟩ := (hP.object ms).mp h
  refine (hP.object ns).mpr ⟨fun e he => ?_, hns.names_eq ▸ hnodup, fun e he => ?_⟩
  · obtain ⟨v, hv, -⟩ := hns.mem_right he
    exact hnames (e.1, v) hv
  · obtain ⟨v, hv, hrelated⟩ := hns.mem_right he
    exact hR e.1 v e.2 hv (hvalues (e.1, v) hv) hrelated

private theorem of_put {name : String} (h : P (.object ms))
    (hv : Members.get? (.str name) ms = some v) (hw : P w) :
    P (.object (Members.put (.str name) w ms)) := by
  have hself : Members.Aligned (fun _ v w => v = w ∨ P w) ms ms :=
    .refl fun _ _ => .inl rfl
  have hput : Members.Aligned _ (Members.put (.str name) v ms)
      (Members.put (.str name) w ms) :=
    hself.put fun _ _ => .inr hw
  rw [Members.put_of_get? hv] at hput
  refine hP.of_aligned h hput fun k x y _ hx hxy => ?_
  rcases hxy with rfl | hy
  · exact hx
  · exact hy

private theorem of_modifyM {name : String} {f : Value → Except Fault Value}
    (h : P (.object ms)) (hns : Members.modifyM (.str name) f ms = .ok ns)
    (hf : ∀ v w, P v → f v = .ok w → P w) : P (.object ns) := by
  rw [Members.modifyM_eq] at hns
  split at hns
  · rename_i v hv
    obtain ⟨w, hw, rfl⟩ := map_eq_ok.mp hns
    exact hP.of_put h hv (hf v w (hP.of_member h (Members.mem_of_get?_str hv)) hw)
  · rwa [← Except.ok.inj hns]

private theorem of_erase (h : P (.object ms)) (name : Scalar) :
    P (.object (Members.erase name ms)) :=
  hP.of_sublist h List.filter_sublist

private theorem of_dropUnless {name : String} {needed : List String}
    (h : P (.object ms)) (hns : dropUnless name needed ms = .ok ns) :
    P (.object ns) := by
  rcases dropUnless_eq_ok hns with rfl | rfl
  · exact h
  · exact hP.of_erase h _

private theorem of_dropBlank (h : P (.object ms)) (name : String) :
    P (.object (dropBlank name ms)) := by
  unfold dropBlank
  split
  · exact h
  · split
    · exact hP.of_erase h _
    · exact h

omit hP in
private theorem of_withinAny {change : Members → Except Fault Members}
    (hchange : ∀ ms ns, P (.object ms) → change ms = .ok ns → P (.object ns)) (hv : P v)
    (h : withinAny change v = .ok w) : P w := by
  unfold withinAny at h
  split at h
  · obtain ⟨ns, hns, h⟩ := bind_eq_ok.mp h
    obtain rfl := Except.ok.inj h
    exact hchange _ ns hv hns
  · rwa [← Except.ok.inj h]

/-! ## Operations -/

/-- The items of a list, the characters of a text and the names of an object
have the property. -/
private theorem of_items (hv : P v) {xs : List Value} (h : v.items = .ok xs) :
    ∀ x ∈ xs, P x := by
  cases v with
  | scalar s =>
      cases s with
      | str s =>
          obtain rfl := Except.ok.inj h
          intro x hx
          obtain ⟨c, -, rfl⟩ := List.mem_map.mp hx
          exact hP.text _
      | torn text => exact absurd hv (hP.noTorn text)
      | bytes b => exact absurd hv (hP.noBytes b)
      | _ => simp [Tree.items] at h
  | list xs =>
      obtain rfl := Except.ok.inj h
      exact (hP.list xs).mp hv
  | pair a b => exact absurd hv (hP.noPair a b)
  | set ns => exact absurd hv (hP.noSet ns)
  | marked mark ms =>
      obtain rfl := Except.ok.inj h
      intro x hx
      obtain ⟨e, he, rfl⟩ := List.mem_map.mp hx
      obtain ⟨name, hname, -⟩ := ((hP.object ms).mp hv).1 e he
      rw [hname]
      exact hP.text _

private theorem of_pruneOperation {op op' : Members} (hop : P (.object op))
    (h : pruneOperation op = .ok op') :
    P (.object op') := by
  obtain ⟨op₁, hop₁, h⟩ := pruneOperation_eq_ok.mp h
  refine hP.of_modifyM (hP.of_dropBlank (hP.of_dropUnless hop hop₁) "tags") h
    fun v w hv hw => ?_
  obtain ⟨names, hnames, hw⟩ := bind_eq_ok.mp hw
  split at hw
  · obtain rfl := Except.ok.inj hw
    exact (hP.list _).mpr fun x hx => hP.of_items hv hnames x (mem_of_mem_distinct hx)
  · simp at hw

open PathItemEdit in
/-- The members of an operation after its callbacks were pruned, if what is in them
stays as it should. -/
private theorem of_nested {op op₁ : Members} (hop : P (.object op))
    (h : nested pruning op = .ok op₁) (hinner : ∀ inner inner', HoldsCallback op inner →
      P (.object inner) → pathItems pruning inner = .ok inner' →
      P (.object inner')) : P (.object op₁) := by
  refine hP.of_aligned hop ((nested_iff pruning).mp h) fun k v w hv hvP hpart => ?_
  unfold editPart at hpart
  split at hpart
  · obtain rfl : k = .str "callbacks" := Scalar.same_str_iff.mp ‹_›
    unfold callbacks at hpart
    split at hpart
    · rename_i map
      obtain ⟨map', hmap', hpart⟩ := bind_eq_ok.mp hpart
      obtain rfl := Except.ok.inj hpart
      refine hP.of_aligned hvP ((callbackEntries_iff pruning).mp hmap')
        fun name x y hx hxP hxy => ?_
      unfold editCallback at hxy
      split at hxy
      · rename_i inner
        obtain ⟨inner', hinner', hxy⟩ := bind_eq_ok.mp hxy
        obtain rfl := Except.ok.inj hxy
        exact hinner inner inner' ⟨map, name, hv, hx⟩ hxP hinner'
      · rwa [← Except.ok.inj hxy]
    · split at hpart
      · rwa [← Except.ok.inj hpart]
      · cases hpart
  · rwa [← Except.ok.inj hpart]

open PathItemEdit in
private theorem of_operations {item changed : Members} (hitem : P (.object item))
    (h : operations pruning item item = .ok changed)
    (hinner : ∀ op inner inner', HoldsOperation item op → HoldsCallback op inner →
      P (.object inner) →
      pathItems pruning inner = .ok inner' → P (.object inner')) :
        P (.object changed) := by
  refine hP.of_aligned hitem ((operations_iff pruning).mp h) fun k v w hv hvP hmember =>
    ?_
  unfold editMember at hmember
  split at hmember
  · rename_i op
    dsimp only at hmember
    split at hmember
    · rename_i hmethod
      obtain ⟨op₁, hop₁, hmember⟩ := bind_eq_ok.mp hmember
      obtain ⟨op', hop', hmember⟩ := bind_eq_ok.mp hmember
      obtain rfl := Except.ok.inj hmember
      have hnested := hP.of_nested hvP hop₁ fun inner inner' hcallback =>
        hinner op inner inner' ⟨k, hmethod, hv⟩ hcallback
      exact hP.of_pruneOperation hnested hop'
    · rwa [← Except.ok.inj hmember]
  · rwa [← Except.ok.inj hmember]

open PathItemEdit in
/-- A map of paths keeps the property, at every depth of callbacks. -/
private theorem of_pathItems {paths paths' : Members} (hpaths : P (.object paths))
    (h : pathItems pruning paths = .ok paths') : P (.object paths') := by
  induction paths using callback_induction generalizing paths' with
  | step paths ih =>
      refine hP.of_aligned hpaths ((pathItems_iff pruning).mp h)
        fun k v w hv hvP hitem => ?_
      unfold editItem at hitem
      split at hitem
      · rename_i item
        obtain ⟨changed, hchanged, hitem⟩ := bind_eq_ok.mp hitem
        obtain rfl := Except.ok.inj hitem
        exact hP.of_operations hvP hchanged
            fun op inner inner' hop hcallback hinner hread =>
          ih item op inner ⟨k, hv⟩ hop hcallback hinner hread
      · rwa [← Except.ok.inj hitem]

/-! ## Documents -/

private theorem of_prunePaths (hv : P v) (h : prunePaths v = .ok w) : P w := by
  unfold prunePaths at h
  split at h
  · rwa [← Except.ok.inj h]
  · cases v with
    | marked mark paths =>
        rw [PathItemEdit.apply, Tree.members, pure_eq_ok, ok_bind] at h
        obtain ⟨paths', hpaths', h⟩ := bind_eq_ok.mp h
        obtain rfl := Except.ok.inj h
        exact hP.of_pathItems hv hpaths'
    | _ => simp [PathItemEdit.apply, Tree.members] at h

private theorem of_pruneTags (hv : P v) (h : pruneTags v = .ok w) : P w := by
  have htag : ∀ tag tag', P tag → withinAny pruneTag tag = .ok tag' →
      P tag' := fun _ _ htag h =>
    of_withinAny (fun _ _ => hP.of_dropUnless) htag h
  unfold pruneTags at h
  split at h
  · obtain ⟨tags, htags, h⟩ := bind_eq_ok.mp h
    obtain rfl := Except.ok.inj h
    refine (hP.list _).mpr fun x hx => ?_
    obtain ⟨tag, hmem, hx⟩ := exists_of_mem_mapM htags hx
    exact htag tag x ((hP.list _).mp hv tag hmem) hx
  · exact absurd hv (hP.noPair _ _)
  · split at h
    · rwa [← Except.ok.inj h]
    · obtain ⟨xs, -, h⟩ := bind_eq_ok.mp h
      rwa [← Except.ok.inj h]

private theorem of_pruneComponents (h : P (.object ms)) :
    P (.object (pruneComponents ms)) :=
  hP.of_dropBlank (hP.of_dropBlank (hP.of_dropBlank (hP.of_dropBlank h _) _) _) _

private theorem of_dropEmptyComponents (h : P (.object ms)) :
    P (.object (dropEmptyComponents ms)) := by
  unfold dropEmptyComponents
  split
  · rename_i components hcomponents
    have hpart := hP.of_member h (Members.mem_of_get?_str hcomponents)
    exact hP.of_dropBlank (hP.of_put h hcomponents (hP.of_pruneComponents hpart)) _
  · exact h

/-- The pruned form of a document is an object that is made of what the
document is made of. -/
theorem prune {document pruned : Value} (hdocument : P document)
    (h : Document.prune document = .ok pruned) :
    ∃ ms, pruned = .object ms ∧ P (.object ms) := by
  cases document with
  | marked mark ms =>
      obtain ⟨ms₁, ms₂, ms₃, ms₄, hpaths, htags, hexternalDocs, hinfo, rfl⟩ :=
        prune_eq_ok.mp h
      have h₁ : P (.object ms₁) := hP.of_modifyM hdocument hpaths fun _ _ =>
        hP.of_prunePaths
      have h₂ : P (.object ms₂) := hP.of_modifyM h₁ htags fun _ _ => hP.of_pruneTags
      have h₃ : P (.object ms₃) := hP.of_dropUnless h₂ hexternalDocs
      have h₄ : P (.object ms₄) := hP.of_modifyM h₃ hinfo fun _ _ =>
        of_withinAny fun _ _ hms hns => by
          obtain ⟨ms₁, hlicense, hcontact⟩ := bind_eq_ok.mp hns
          exact hP.of_dropUnless (hP.of_dropUnless hms hlicense) hcontact
      refine ⟨_, rfl, hP.of_dropEmptyComponents ?_⟩
      exact hP.of_dropBlank (hP.of_dropBlank (hP.of_dropBlank h₄ _) _) _
  | _ => simp [Document.prune, Tree.members] at h

end MadeOf

end ApiWorkbench.Document
