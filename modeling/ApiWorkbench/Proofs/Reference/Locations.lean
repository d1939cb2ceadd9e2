import ApiWorkbench.Proofs.Digits
import ApiWorkbench.Proofs.Members
import ApiWorkbench.Proofs.Reference.Spelling
import ApiWorkbench.Proofs.Result

/-!
# Pointers to locations

A location is a way into a value: from objects to their members, by name, and from lists
to their items, by position. A pointer writes it down with a slash before every step. In
a name the percent sign is escaped first and the slash last; reading a pointer undoes
this in the opposite order, so that no name is escaped or read twice. A position is
written in decimal digits.

Names that are no texts and the empty name cannot be written. A position has no more
digits than a number may have that is read from a text; no list is long enough to
have another one.

## Main results

* `escape_eq_spell`: one character after the other is escaped.
* `segments_pointerAt`: the segments of a pointer are the names and positions that it
  was written for.
* `resolve_pointerAt`: a pointer to a location leads to what is there, and with the name
  of a missing member in it nowhere.
-/

namespace ApiWorkbench.Reference

open Text

/-- A step from an object to a member, or from a list to an item. -/
inductive LocationStep where
  | member (name : String)
  | item (position : Nat)

/-- A way from a value to a part of it. -/
abbrev Location : Type := List LocationStep

/-- A name with its escapes. -/
def escape (name : String) : String :=
  replaceAll "/" "~1" (replaceAll "~" "~0" (replaceAll "%" "%25" name))

namespace LocationStep

/-- What a step leads to. -/
def into? : LocationStep → Value → Option Value
  | .member name, .object ms => Members.get? name ms
  | .item position, .list xs => xs[position]?
  | _, _ => none

/-- Whether a step can be written in a pointer. -/
def IsWritable : LocationStep → Prop
  | .member name => name ≠ ""
  | .item position => position < 10 ^ maxDigits

/-- The segment of a pointer for a step. -/
def segment : LocationStep → List Char
  | .member name => (escape name).toList
  | .item position => (toString position).toList

/-- The name or the position of a step. -/
def label : LocationStep → String
  | .member name => name
  | .item position => toString position

end LocationStep

/-- The part of a value at a location. -/
def partAt? : Location → Value → Option Value
  | [], v => some v
  | step :: rest, v => (step.into? v).bind (partAt? rest)

/-- The pointer to a location. -/
def pointerAt (location : Location) : String :=
  pointerTo (location.map LocationStep.segment)

/-! ## Segments -/

theorem escape_eq_spell (name : String) : escape name = spell name := by
  rw [escape, replaceAll_char (c := '/') rfl, replaceAll_char (c := '~') rfl,
    replaceAll_char (c := '%') rfl, spell]
  simp only [String.toList_ofList, List.flatMap_assoc]
  congr 2
  funext c
  by_cases hpercent : c = '%'
  · subst hpercent
    rfl
  by_cases htilde : c = '~'
  · subst htilde
    rfl
  by_cases hslash : c = '/'
  · subst hslash
    rfl
  simp [spellChar, hpercent, htilde, hslash]

namespace LocationStep

variable {step : LocationStep} {v w : Value}

theorem spells_segment (step : LocationStep) :
    Spells step.label.toList step.segment := by
  cases step with
  | member name =>
      rw [segment, escape_eq_spell]
      exact spells_spell name
  | item position =>
      have hplain : ∀ d < 10, d.digitChar ≠ '~' ∧ d.digitChar ≠ '/' ∧
          d.digitChar ≠ '%' := by
        decide
      refine spells_self fun c hc => ?_
      obtain ⟨d, hd, rfl⟩ := exists_of_mem_toDigits (by decide) (Nat.toList_repr ▸ hc)
      exact hplain d hd

theorem IsWritable.label_ne_nil (h : step.IsWritable) : step.label.toList ≠ [] := by
  cases step with
  | member name => exact fun hnil => h (String.toList_eq_nil_iff.mp hnil)
  | item position =>
      rw [label, Nat.toString_eq_repr, Nat.toList_repr]
      exact Nat.toDigits_ne_nil

/-- The digits of a position are read as that position. -/
theorem position_toString {i : Nat} (h : i < 10 ^ maxDigits) :
    position (toString i) = .ok i := by
  have hlength : (toString i).length ≤ maxDigits := by
    rw [← String.length_toList, Nat.toString_eq_repr, Nat.toList_repr]
    exact (Nat.length_toDigits_le_iff (by decide) (by decide)).mpr h
  simp only [position, decimalNumber?_toString, if_pos hlength]
  rfl

/-- A walk makes the step that a label stands for. -/
theorem step_label (hstep : step.IsWritable) (h : step.into? v = some w) :
    Reference.step v step.label = .ok (some w) := by
  unfold into? at h
  split at h
  · rw [label, Reference.step, h]
    rfl
  · rename_i i xs
    have hdigits : (!(toString i).isEmpty && (toString i).toList.all isDigit) =
        true := by
      rw [Bool.and_eq_true, List.all_eq_true]
      refine ⟨?_, fun c hc => isDigit_of_mem_toDigits (Nat.toList_repr ▸ hc)⟩
      simp
    rw [label, Reference.step, if_pos hdigits, position_toString hstep, ok_bind, h]
    rfl
  · contradiction

end LocationStep

variable {location before after : Location} {root v : Value}

/-- The segments of a pointer are the names and positions that it was written for. -/
theorem segments_pointerAt (h : ∀ step ∈ location, step.IsWritable) :
    segments (pointerAt location) = location.map LocationStep.label := by
  have hspells : List.Forall₂ Spells (location.map fun step => step.label.toList)
      (location.map LocationStep.segment) := by
    rw [List.forall₂_map_left_iff, List.forall₂_map_right_iff]
    exact List.forall₂_same.mpr fun step _ => step.spells_segment
  rw [pointerAt, segments_spelled hspells, List.map_map]
  · refine List.map_congr_left fun step _ => String.ofList_toList
  · intro name hname
    obtain ⟨step, hstep, rfl⟩ := List.mem_map.mp hname
    exact (h step hstep).label_ne_nil

/-! ## Walks -/

/-- A walk along a location goes on from what is there. -/
theorem walk_append (h : ∀ step ∈ location, step.IsWritable)
    (hv : partAt? location root = some v) (rest : List String) :
    walk root (location.map LocationStep.label ++ rest) = walk v rest := by
  induction location generalizing root with
  | nil =>
      obtain rfl := Option.some.inj hv
      rfl
  | cons step location ih =>
      rw [List.forall_mem_cons] at h
      obtain ⟨next, hnext, hv⟩ := Option.bind_eq_some_iff.mp hv
      rw [List.map_cons, List.cons_append, walk, step.step_label h.1 hnext, ok_bind]
      exact ih h.2 hv

/-- A walk ends at a member that is missing. -/
theorem walk_missing {ms : Members} {missing : String}
    (hmissing : Members.get? missing ms = none) (rest : List String) :
    walk (.object ms) (missing :: rest) = .ok .null := by
  rw [walk, step, hmissing]
  rfl

/-- A pointer to a location leads to what is there. With the name of a missing member in
it the pointer leads nowhere. -/
theorem resolve_pointerAt (h : ∀ step ∈ location, step.IsWritable)
    (hv : partAt? location root = some v) :
    resolve (.str (pointerAt location)) root = .ok v ∧
      ∀ (before : Location) (name : String) (after : Location)
        (ms : Members) (missing : String), location = before ++ .member name :: after →
        partAt? before root = some (.object ms) →
          missing ≠ "" → Members.get? missing ms = none →
            resolve (.str (pointerAt (before ++ .member missing :: after))) root =
              .ok .null := by
  constructor
  · rw [resolve, segments_pointerAt h]
    simpa [walk] using walk_append h hv []
  · rintro before name after ms missing rfl hbefore hname hmissing
    rw [List.forall_mem_append, List.forall_mem_cons] at h
    have hwritable : ∀ step ∈ before ++ .member missing :: after, step.IsWritable := by
      rw [List.forall_mem_append, List.forall_mem_cons]
      exact ⟨h.1, hname, h.2.2⟩
    rw [resolve, segments_pointerAt hwritable, List.map_append, walk_append h.1 hbefore]
    exact walk_missing hmissing _

/-- A list among members whose names have slashes, tildes, percent signs and letters
outside ASCII. -/
private def namedPlaces : Value :=
  .record [("a/b~1%7E", .list [.null, .record [("ключ%25", .int 7)]]),
    ("~0", .str "tilde")]

/-- Through such names and a position the pointer leads to the number; another name in
the last step is missing. -/
theorem resolve_pointerAt_of_namedPlaces :
    partAt? [.member "a/b~1%7E", .item 1, .member "ключ%25"] namedPlaces =
      some (.int 7) ∧
      pointerAt [.member "a/b~1%7E", .item 1, .member "ключ%25"] =
        "#/a~1b~01%257E/1/ключ%2525" ∧
      resolve (.str "#/a~1b~01%257E/1/ключ%2525") namedPlaces = .ok (.int 7) ∧
      resolve (.str "#/a~1b~01%257E/1/ключ%252525") namedPlaces = .ok .null := by
  have hwritable : ∀ step ∈ [.member "a/b~1%7E", .item 1, .member "ключ%25"],
      LocationStep.IsWritable step := by
    have hsmall : 1 < 10 ^ maxDigits := Nat.one_lt_pow (by decide) (by decide)
    simp [LocationStep.IsWritable, hsmall]
  have hpart : partAt? [.member "a/b~1%7E", .item 1, .member "ключ%25"] namedPlaces =
      some (.int 7) := rfl
  obtain ⟨hfound, hmissing⟩ := resolve_pointerAt hwritable hpart
  exact ⟨hpart, rfl, hfound, hmissing [.member "a/b~1%7E", .item 1] _ [] _ "ключ%2525"
    rfl rfl (by decide) rfl⟩

end ApiWorkbench.Reference
