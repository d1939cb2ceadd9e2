import ApiWorkbench.Proofs.Document.OperationPlaces
import ApiWorkbench.Proofs.Frame

/-!
# What an edit brings about at every depth

An edit of path items goes through maps of paths inside callbacks of operations inside
paths. What it brings about is said for one level, given a relation between the maps of
paths that are one level further inside; `AtEveryDepth` is the relation that this makes
of a map of paths and its result. At each level the map keeps its names and their order,
and every entry that is no path item; a path item keeps its names and their order, but
for what is taken from all of them, and every member that is no operation (`PathLevel`).

## Main results

* `atEveryDepth_iff`: one level of the relation at a time.
* `atEveryDepth_of_pathItems`: what one step of an edit brings about is brought about
  at every depth.
-/

namespace ApiWorkbench.Document

open Members

/-- An object and another one stand in a relation; anything else is the same. -/
def OnObject (R : Members → Members → Prop) : Value → Value → Prop
  | .object ms, w => ∃ ns, w = .object ns ∧ R ms ns
  | v, w => w = v

/-- Tags that are objects stand in a relation with what has become of them, in a list or
a pair; anything else is the same. -/
def TagsBecome (R : Members → Members → Prop) : Value → Value → Prop
  | .list tags, w => ∃ tags', w = .list tags' ∧ List.Forall₂ (OnObject R) tags tags'
  | .pair a b, w => ∃ a' b', w = .pair a' b' ∧ OnObject R a a' ∧ OnObject R b b'
  | v, w => w = v

/-- What is no list and no pair stays the same. -/
theorem tagsBecome_self {R : Members → Members → Prop} {v : Value}
    (hlist : ∀ xs, v ≠ .list xs) (hpair : ∀ a b, v ≠ .pair a b) : TagsBecome R v v := by
  cases v with
  | list xs => exact absurd rfl (hlist xs)
  | pair a b => exact absurd rfl (hpair a b)
  | _ => rfl

/-- A relation between members and what has become of them, of which one level is
given. -/
inductive AtEveryDepth (level : (Members → Members → Prop) → Members → Members → Prop) :
    Members → Members → Prop where
  | intro {inside : Members → Members → Prop} {paths paths' : Members} :
      (∀ inner inner', inside inner inner' → AtEveryDepth level inner inner') →
        level inside paths paths' →
        AtEveryDepth level paths paths'

/-- Callbacks whose maps of paths stand in a relation. -/
def CallbacksBecome (inside : Members → Members → Prop) : Value → Value → Prop :=
  OnObject (Aligned fun _ => OnObject inside)

/-- Maps of paths in which each operation of a path item, which is given to the
relation as well, has become another one, and certain members have been taken from
each path item. -/
def PathLevel (cut : Members → Members)
    (onOperation : (Members → Members → Prop) → (item op op' : Members) → Prop)
    (inside : Members → Members → Prop) : Members → Members → Prop :=
  Aligned fun _ => OnObject fun item item' =>
    Aligned (fun name v w => if isMethod name then OnObject (onOperation inside item) v
      w else w = v) (cut item) item'

/-! ## Weaker relations -/

theorem OnObject.imp {R S : Members → Members → Prop} {v w : Value} (h : OnObject R v w)
    (hRS : ∀ ms ns, v = .object ms → R ms ns → S ms ns) : OnObject S v w := by
  cases v with
  | marked mark ms =>
      obtain ⟨ns, rfl, hns⟩ := h
      exact ⟨ns, rfl, hRS ms ns rfl hns⟩
  | _ => exact h

theorem CallbacksBecome.imp {inside inside' : Members → Members → Prop} {v w : Value}
    (h : CallbacksBecome inside v w)
    (hinside : ∀ inner inner', inside inner inner' → inside' inner inner') :
    CallbacksBecome inside' v w :=
  OnObject.imp h fun _ _ _ hmap => Aligned.imp hmap fun _ _ _ hentry =>
    hentry.imp fun _ _ _ => hinside _ _

section

variable {cut : Members → Members}
  {onOperation : (Members → Members → Prop) → (item op op' : Members) → Prop}
  {paths paths' : Members}

/-- The relation at every depth holds if it holds of one level with itself inside. -/
theorem atEveryDepth_iff
    (hmono : ∀ {inside inside' : Members → Members → Prop},
      (∀ inner inner', inside inner inner' → inside' inner inner') →
        ∀ item op op', onOperation inside item op op' →
          onOperation inside' item op op') :
    AtEveryDepth (PathLevel cut onOperation) paths paths' ↔
      PathLevel cut onOperation (AtEveryDepth (PathLevel cut onOperation))
        paths paths' := by
  constructor
  · rintro ⟨hinside, hlevel⟩
    refine Aligned.imp hlevel fun _ _ _ hitem => hitem.imp fun item _ _ hmembers =>
      Aligned.imp hmembers ?_
    intro name v w hmember
    split
    · rw [if_pos ‹_›] at hmember
      exact hmember.imp fun op op' _ => hmono hinside item op op'
    · rwa [if_neg ‹_›] at hmember
  · exact .intro fun _ _ h => h

end

/-! ## What an edit brings about -/

namespace PathItemEdit

variable {edit : PathItemEdit} {item op op₁ paths paths' : Members}
  {name : Scalar} {v w : Value}

private theorem onObject_of_editItem (h : editItem edit v = .ok w) :
    OnObject
      (fun item item' => ∃ changed, operations edit item item = .ok changed ∧
        item' = edit.item changed) v w := by
  cases v with
  | marked mark item =>
      obtain ⟨changed, hchanged, heq⟩ := bind_eq_ok.mp h
      exact ⟨edit.item changed, (Except.ok.inj heq).symm, changed, hchanged, rfl⟩
  | _ => exact (Except.ok.inj h).symm

/-- An edit leaves the members of a path item that are no operations. -/
private theorem onObject_of_editMember (h : editMember edit item name v = .ok w) :
    if isMethod name then
      OnObject (fun op op' => ∃ op₁, nested edit op = .ok op₁ ∧
        edit.operation item op₁ = .ok op') v w
    else w = v := by
  cases v with
  | marked mark op =>
      rw [editMember] at h
      split
      · rw [if_pos ‹_›] at h
        obtain ⟨op₁, hnested, h⟩ := bind_eq_ok.mp h
        obtain ⟨op', hop', heq⟩ := bind_eq_ok.mp h
        exact ⟨op', (Except.ok.inj heq).symm, op₁, hnested, hop'⟩
      · rw [if_neg ‹_›] at h
        exact (Except.ok.inj h).symm
  | _ =>
      obtain rfl := Except.ok.inj h
      split <;> rfl

private theorem onObject_of_callbacks (h : callbacks edit v = .ok w) :
    OnObject (fun map map' => callbackEntries edit map = .ok map') v w := by
  cases v with
  | marked mark map =>
      obtain ⟨map', hmap', heq⟩ := bind_eq_ok.mp h
      exact ⟨map', (Except.ok.inj heq).symm, hmap'⟩
  | _ =>
      rw [callbacks] at h
      · split at h
        · exact (Except.ok.inj h).symm
        · simp at h
      · simp

private theorem onObject_of_editCallback (h : editCallback edit v = .ok w) :
    OnObject (fun inner inner' => pathItems edit inner = .ok inner') v w := by
  cases v with
  | marked mark inner =>
      obtain ⟨inner', hinner', heq⟩ := bind_eq_ok.mp h
      exact ⟨inner', (Except.ok.inj heq).symm, hinner'⟩
  | _ => exact (Except.ok.inj h).symm

/-- Operations that agree in everything but their callbacks are the same but for
these. -/
theorem AgreeButCallbacks.sameBut {R : Value → Value → Prop}
    (h : AgreeButCallbacks R op op₁) :
    SameBut ["callbacks"] op op₁ :=
  Aligned.imp h fun name v w hvalue hname => by
    rw [if_neg fun heq => hname "callbacks" (by simp) (Scalar.same_str_iff.mp heq)]
      at hvalue
    exact hvalue.symm

/-- What has become of callbacks is found where they were. -/
theorem AgreeButCallbacks.get?_callbacks {R : Value → Value → Prop}
    (h : AgreeButCallbacks R op op₁) (hv : get? "callbacks" op = some v) :
    ∃ w, get? "callbacks" op₁ = some w ∧ R v w := by
  obtain ⟨k, w, hk, hw, hvw⟩ := Aligned.get?_some h hv
  rw [if_pos hk] at hvw
  exact ⟨w, hw, hvw⟩

/-- After an edit of its callbacks an operation agrees with what it was, and the maps of
paths inside have been edited. -/
private theorem callbacksBecome_of_nested (h : nested edit op = .ok op₁) :
    AgreeButCallbacks
      (CallbacksBecome fun inner inner' => HoldsCallback op inner ∧
        pathItems edit inner = .ok inner') op op₁ := by
  refine Aligned.imp_of_mem (agreeButCallbacks_of_nested h) fun name v w hpart hvalue =>
    ?_
  split
  · rw [if_pos ‹_›] at hvalue
    obtain rfl := Scalar.same_str_iff.mp ‹_›
    refine (onObject_of_callbacks hvalue).imp fun map map' hmap hentries => ?_
    refine Aligned.imp_of_mem ((callbackEntries_iff edit).mp hentries)
      fun callback u u' hentry hedit => ?_
    refine (onObject_of_editCallback hedit).imp fun inner inner' hinner hpaths =>
      ⟨?_, hpaths⟩
    exact ⟨map, callback, hmap ▸ hpart, hinner ▸ hentry⟩
  · rwa [if_neg ‹_›] at hvalue

/-- What one step of an edit brings about is brought about at every depth. A step
may use that the callbacks of the operation at hand have been edited, while nothing
else of it has. -/
theorem atEveryDepth_of_pathItems
    {onOperation : (Members → Members → Prop) → (item op op' : Members) → Prop}
    (hitem : ∀ {R : Scalar → Value → Value → Prop} {item changed : Members},
      Aligned R item changed →
      Aligned R (edit.item item) (edit.item changed))
    (hoperation : ∀ {inside : Members → Members → Prop} {item op op₁ op' : Members},
      AgreeButCallbacks (CallbacksBecome inside) op op₁ →
        edit.operation item op₁ = .ok op' →
        onOperation inside item op op')
    (h : pathItems edit paths = .ok paths') :
    AtEveryDepth (PathLevel edit.item onOperation) paths paths' := by
  induction paths using callback_induction generalizing paths' with
  | step paths ih =>
      -- the maps of paths inside, and what the edit has made of them
      let inside (inner inner' : Members) : Prop :=
        (∃ item op, HoldsItem paths item ∧ HoldsOperation item op ∧
          HoldsCallback op inner) ∧
          pathItems edit inner = .ok inner'
      have hinside : ∀ inner inner', inside inner inner' →
          AtEveryDepth (PathLevel edit.item onOperation) inner inner' := by
        rintro inner inner' ⟨⟨item, op, hholds, hop, hcallback⟩, hedit⟩
        exact ih item op inner hholds hop hcallback hedit
      refine .intro hinside
        (Aligned.imp_of_mem ((pathItems_iff edit).mp h) fun path v w hpath hedit => ?_)
      refine (onObject_of_editItem hedit).imp ?_
      rintro item item' rfl ⟨changed, hchanged, rfl⟩
      refine hitem (Aligned.imp_of_mem ((operations_iff edit).mp hchanged)
        fun name u u' hmember hmade => ?_)
      have hmade := onObject_of_editMember hmade
      split
      · rename_i hmethod
        rw [if_pos hmethod] at hmade
        refine hmade.imp ?_
        rintro op op' rfl ⟨op₁, hnested, hop'⟩
        refine hoperation
          (Aligned.imp (callbacksBecome_of_nested hnested) fun part x y hxy => ?_) hop'
        split
        · rw [if_pos ‹_›] at hxy
          exact hxy.imp fun inner inner' ⟨hcallback, hinner⟩ =>
            ⟨⟨item, op, ⟨path, hpath⟩, ⟨name, hmethod, hmember⟩, hcallback⟩, hinner⟩
        · rwa [if_neg ‹_›] at hxy
      · rwa [if_neg ‹_›] at hmade

end PathItemEdit

end ApiWorkbench.Document
