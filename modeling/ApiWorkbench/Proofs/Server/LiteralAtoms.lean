import ApiWorkbench.Proofs.Server.Literals
import ApiWorkbench.Proofs.Tree

/-!
# What literals are made of

The literal of a value has nothing in it that is not in the value: its texts and bytes
are those of the value, and around them there are digits, marks and a few names. This
holds of values without doubles, dates and moments, whose literals are not looked into.

## Main results

* `atomsIn_value`: the atoms of the literal of a value.
-/

namespace ApiWorkbench.Server

open ApiWorkbench.Tree (Everywhere Holds)

/-! ## Exact values -/

/-- Whether a part of a value is no double, no date and no moment. -/
def isExactPart : Value → Bool
  | .float _ => false
  | .scalar (.date _) => false
  | .scalar (.moment _) => false
  | _ => true

/-- No doubles, dates and moments are in a value. -/
def IsExact (v : Value) : Prop :=
  Everywhere (fun part => isExactPart part = true) v

theorem IsExact.of_holds {v w : Value} (h : IsExact v) (hw : Holds v w) : IsExact w :=
  fun part hpart => h part (hw.trans hpart)

theorem isExact_null : IsExact .null := by
  intro part hpart
  cases hpart
  rfl

@[simp] theorem isExact_str (text : String) : IsExact (.str text) := by
  intro part hpart
  cases hpart
  rfl

@[simp] theorem isExact_bytes (b : List UInt8) : IsExact (.scalar (.bytes b)) := by
  intro part hpart
  cases hpart
  rfl

@[simp] theorem isExact_set {names : List Scalar} :
    IsExact (.set names) ↔ ∀ k ∈ names, IsExact (.scalar k) :=
  Tree.everywhere_set.trans (and_iff_right (by rfl))

@[simp] theorem isExact_list {xs : List Value} :
    IsExact (.list xs) ↔ ∀ x ∈ xs, IsExact x :=
  Tree.everywhere_list.trans (and_iff_right (by rfl))

@[simp] theorem isExact_object {ms : Members} :
    IsExact (.object ms) ↔ ∀ e ∈ ms, IsExact (.scalar e.1) ∧ IsExact e.2 :=
  Tree.everywhere_marked.trans (and_iff_right (by rfl))

/-! ## Atoms -/

/-- Every atom of phrases has a property. -/
def AtomsIn (P : Atom → Prop) (phrases : List Phrase) : Prop :=
  ∀ a, Token.atom a ∈ phraseTokens phrases → P a

variable {P Q : Atom → Prop}

@[simp] theorem atomsIn_nil : AtomsIn P [] := by
  simp [AtomsIn]

@[simp] theorem atomsIn_atom {a : Atom} {rest : List Phrase} :
    AtomsIn P (.atom a :: rest) ↔ P a ∧ AtomsIn P rest := by
  simp [AtomsIn, Phrase.tokens, or_imp, forall_and]

@[simp] theorem atomsIn_word {text : String} {rest : List Phrase} :
    AtomsIn P (word text :: rest) ↔ P (.word text) ∧ AtomsIn P rest :=
  atomsIn_atom

@[simp] theorem atomsIn_comma {rest : List Phrase} :
    AtomsIn P (comma :: rest) ↔ P (.mark ',') ∧ AtomsIn P rest :=
  atomsIn_atom

@[simp] theorem atomsIn_colon {rest : List Phrase} :
    AtomsIn P (colon :: rest) ↔ P (.mark ':') ∧ AtomsIn P rest :=
  atomsIn_atom

@[simp] theorem atomsIn_equals {rest : List Phrase} :
    AtomsIn P (equals :: rest) ↔ P (.mark '=') ∧ AtomsIn P rest :=
  atomsIn_atom

@[simp] theorem atomsIn_group {bracket : Bracket} {content rest : List Phrase} :
    AtomsIn P (.group bracket content :: rest) ↔ AtomsIn P content ∧
      AtomsIn P rest := by
  simp [AtomsIn, Phrase.tokens, or_imp, forall_and]

@[simp] theorem atomsIn_append {phrases others : List Phrase} :
    AtomsIn P (phrases ++ others) ↔ AtomsIn P phrases ∧ AtomsIn P others := by
  simp [AtomsIn, or_imp, forall_and]

theorem AtomsIn.imp {phrases : List Phrase} (h : AtomsIn P phrases)
    (hPQ : ∀ a, P a → Q a) : AtomsIn Q phrases :=
  fun a ha => hPQ a (h a ha)

theorem atomsIn_listed (hcomma : P (.mark ',')) {entries : List (List Phrase)} :
    AtomsIn P (listed entries) ↔ ∀ entry ∈ entries, AtomsIn P entry := by
  induction entries with
  | nil => simp [listed]
  | cons entry rest ih =>
      cases rest with
      | nil => simp [listed]
      | cons next rest =>
          rw [listed] at ih
          rw [listed, List.intercalate_cons_cons,
            List.append_assoc, List.singleton_append, atomsIn_append, atomsIn_comma, ih,
            and_iff_right hcomma]
          simp only [List.forall_mem_cons]

/-! ## Values -/

/-- What the literal of a value is made of: the texts and the bytes in it, digits, a few
names and marks. -/
inductive Spelled (v : Value) : Atom → Prop
  | mark {c : Char} : c ∈ [',', ':', '-'] → Spelled v (.mark c)
  | word {text : String} : text ∈ ["None", "True", "False"] → Spelled v (.word text)
  | digits (n : Nat) : Spelled v (.word (toString n))
  | emptySet : Holds v (.set []) → Spelled v (.word "set")
  | text {s : String} : Holds v (.str s) → Spelled v (.text s)
  | torn {text : Text.Torn} : Holds v (.scalar (.torn text)) → Spelled v (.torn text)
  | bytes {b : List UInt8} : Holds v (.scalar (.bytes b)) → Spelled v (.bytes b)

theorem Spelled.of_holds {v w : Value} {a : Atom} (h : Spelled w a) (hw : Holds v w) :
    Spelled v a := by
  cases h with
  | mark hc => exact .mark hc
  | word htext => exact .word htext
  | digits n => exact .digits n
  | emptySet hset => exact .emptySet (hw.trans hset)
  | text htext => exact .text (hw.trans htext)
  | torn htext => exact .torn (hw.trans htext)
  | bytes hbytes => exact .bytes (hw.trans hbytes)

theorem atomsIn_scalar : ∀ s : Scalar, IsExact (.scalar s) →
    AtomsIn (Spelled (.scalar s)) (scalarPhrases s)
  | .null, _ => by simpa [scalarPhrases] using Spelled.word (by simp)
  | .bool b, _ => by
      cases b <;> simpa [scalarPhrases] using Spelled.word (by simp)
  | .int (.ofNat n), _ => by
      simpa [scalarPhrases, integerPhrases] using Spelled.digits n
  | .int (.negSucc n), _ => by
      simpa [scalarPhrases, integerPhrases]
        using And.intro (Spelled.mark (by simp)) (Spelled.digits (n + 1))
  | .float x, h => nomatch h _ (.here _)
  | .str s, _ => by simpa [scalarPhrases] using Spelled.text (.here _)
  | .torn text, _ => by simpa [scalarPhrases] using Spelled.torn (.here _)
  | .bytes b, _ => by simpa [scalarPhrases] using Spelled.bytes (.here _)
  | .date d, h => nomatch h _ (.here _)
  | .moment m, h => nomatch h _ (.here _)
  | .pair a b, h => by
      have hfirst : Holds (.scalar (.pair a b) : Value) (.scalar a) :=
        .firstName (.here _)
      have hsecond : Holds (.scalar (.pair a b) : Value) (.scalar b) :=
        .secondName (.here _)
      simp only [scalarPhrases, atomsIn_group, atomsIn_nil, and_true]
      rw [atomsIn_listed (.mark (by simp))]
      simp only [List.mem_cons, List.not_mem_nil, or_false, forall_eq_or_imp, forall_eq]
      exact ⟨(atomsIn_scalar a (h.of_holds hfirst)).imp fun _ ha => ha.of_holds hfirst,
        (atomsIn_scalar b (h.of_holds hsecond)).imp fun _ ha => ha.of_holds hsecond⟩

/-- Parts of a value in brackets. -/
private theorem atomsIn_parts {v : Value} {bracket : Bracket}
    {entries : List (List Phrase)} (h : ∀ entry ∈ entries, AtomsIn (Spelled v) entry) :
    AtomsIn (Spelled v) [.group bracket (listed entries)] := by
  rw [atomsIn_group, atomsIn_listed (.mark (by simp))]
  exact ⟨h, atomsIn_nil⟩

private theorem atomsIn_part {v w : Value} {phrases : List Phrase} (hw : Holds v w)
    (h : AtomsIn (Spelled w) phrases) : AtomsIn (Spelled v) phrases :=
  h.imp fun _ ha => ha.of_holds hw

private theorem atomsIn_set {names : List Scalar} (h : IsExact (.set names)) :
    AtomsIn (Spelled (.set names)) (setPhrases names) := by
  cases names with
  | nil => simpa [setPhrases] using Spelled.emptySet (.here _)
  | cons name rest =>
      refine atomsIn_parts fun entry hentry => ?_
      obtain ⟨k, hk, rfl⟩ := List.mem_map.mp hentry
      have hholds : Holds (.set (name :: rest) : Value) (.scalar k) :=
        .element hk (.here _)
      exact atomsIn_part hholds (atomsIn_scalar k (h.of_holds hholds))

mutual

/-- The literal of a value is made of what is in the value. -/
theorem atomsIn_value : ∀ v : Value, IsExact v → AtomsIn (Spelled v) (valuePhrases v)
  | .scalar s, h => atomsIn_scalar s h
  | .list items, h => by
      exact atomsIn_parts (atomsIn_items h items fun x hx => .item hx (.here x))
  | .pair a b, h => by
      have hfirst : Holds (.pair a b) a := .first (.here _)
      have hsecond : Holds (.pair a b) b := .second (.here _)
      refine atomsIn_parts fun entry hentry => ?_
      simp only [List.mem_cons, List.not_mem_nil, or_false] at hentry
      rcases hentry with rfl | rfl
      · exact atomsIn_part hfirst (atomsIn_value a (h.of_holds hfirst))
      · exact atomsIn_part hsecond (atomsIn_value b (h.of_holds hsecond))
  | .set names, h => atomsIn_set h
  | .marked _ members, h => by
      exact atomsIn_parts (atomsIn_members h members fun k x hx =>
        ⟨.name hx (.here _), .member hx (.here _)⟩)

theorem atomsIn_items {v : Value} (h : IsExact v) :
    ∀ items : List Value, (∀ x ∈ items, Holds v x) →
    ∀ entry ∈ itemPhrases items, AtomsIn (Spelled v) entry
  | [], _ => by simp [itemPhrases]
  | x :: rest, hitems => by
      have hx : Holds v x := hitems x List.mem_cons_self
      rw [itemPhrases, List.forall_mem_cons]
      exact ⟨atomsIn_part hx (atomsIn_value x (h.of_holds hx)),
        atomsIn_items h rest fun y hy => hitems y (List.mem_cons_of_mem x hy)⟩

theorem atomsIn_members {v : Value} (h : IsExact v) : ∀ members : Members,
    (∀ k x, (k, x) ∈ members → Holds v (.scalar k) ∧ Holds v x) →
    ∀ entry ∈ memberPhrases members, AtomsIn (Spelled v) entry
  | [], _ => by simp [memberPhrases]
  | (k, x) :: rest, hmembers => by
      obtain ⟨hk, hx⟩ := hmembers k x List.mem_cons_self
      rw [memberPhrases, List.forall_mem_cons, atomsIn_append, atomsIn_colon]
      exact ⟨⟨atomsIn_part hk (atomsIn_scalar k (h.of_holds hk)), .mark (by simp),
        atomsIn_part hx (atomsIn_value x (h.of_holds hx))⟩,
        atomsIn_members h rest fun l y hy => hmembers l y (List.mem_cons_of_mem _ hy)⟩

end

end ApiWorkbench.Server
