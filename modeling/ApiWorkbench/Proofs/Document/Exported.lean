import ApiWorkbench.Document.Export
import ApiWorkbench.Proofs.Document.PrunedParts
import ApiWorkbench.Proofs.Document.TextNames
import ApiWorkbench.Proofs.Json.RoundTrip
import ApiWorkbench.Proofs.Yaml.NotJson
import ApiWorkbench.Proofs.Yaml.Reread

/-!
# Exports that are read again

A document is exported in its pruned form, and both texts, the JSON and the YAML one,
can be imported. The JSON text is read as exactly that form. The YAML text is too,
except that a text which is written between single quotes loses the next-line characters
in it: the reader takes them for the ends of lines, which it joins.

## Main results

* `parse_toJson`: the JSON text of a document is read as its pruned form.
* `parse_exports`: what is read from the two texts of a document, and when it is the
  same.
-/

namespace ApiWorkbench.Document

open Yaml

variable {ms : Members} {v w : Value}

/-! ## Values that have a text -/

/-- Values that JSON knows have texts for names. -/
private theorem madeOf_plain : MadeOf (fun _ => True) Json.Plain where
  text _ := .scalar trivial
  noTorn := by rintro text ⟨⟨⟩⟩
  noBytes := by rintro b ⟨⟨⟩⟩
  noPair := by rintro a b ⟨⟩
  noSet := by rintro ns ⟨⟩
  list xs := ⟨fun h => by cases h with | list hxs => exact hxs, .list⟩
  object ms := by
    refine ⟨fun h => ?_, fun ⟨hnames, hnodup, hvalues⟩ =>
      .object (by simpa using hnames) hnodup hvalues⟩
    cases h with
    | object hnames hnodup hvalues => exact ⟨by simpa using hnames, hnodup, hvalues⟩

/-- Values whose YAML text can be read have texts for names that fit a line. -/
private theorem madeOf_portable : MadeOf FitsLine Portable where
  text _ := .scalar trivial
  noTorn := by rintro text ⟨⟨⟩⟩
  noBytes := by rintro b ⟨⟨⟩⟩
  noPair := by rintro a b ⟨⟩
  noSet := by rintro ns ⟨⟩
  list xs := ⟨fun h => by cases h with | list hxs => exact hxs, .list⟩
  object ms := by
    refine ⟨fun h => ?_, fun ⟨hnames, hnodup, hvalues⟩ => .object hnames hnodup hvalues⟩
    cases h with
    | object hnames hnodup hvalues => exact ⟨hnames, hnodup, hvalues⟩

private theorem plain_of_portable (hv : Portable v) : Json.Plain v := by
  induction hv with
  | @scalar s hs =>
      refine .scalar ?_
      cases s with
      | int n => exact hs
      | null | bool _ | str _ => trivial
      | float _ | torn _ | bytes _ | date _ | moment _ | pair _ _ => exact hs.elim
  | list _ ih => exact .list ih
  | object hnames hnodup _ ih =>
      refine .object (fun e he => ?_) hnodup ih
      obtain ⟨name, hname, -⟩ := hnames e he
      exact ⟨name, hname⟩

/-! ## Names -/

private theorem plain_namesApart (hv : Json.Plain v) : NamesApart v := by
  intro ns hns
  induction hv with
  | scalar _ => simp at hns
  | list _ ih =>
      obtain ⟨x, hx, hwithin⟩ := Tree.within_list_marked.mp hns
      exact ih x hx hwithin
  | object hnames hnodup _ ih =>
      rcases Tree.within_marked_marked.mp hns with ⟨-, rfl⟩ | ⟨e, he, hwithin⟩
      · exact ⟨fun e he => Scalar.isText_of_eq_str (hnames e he), hnodup⟩
      · exact ih e he hwithin

/-- The names of what is read are texts, all different. -/
private theorem reread_namesApart (hv : Portable v) : NamesApart (reread v) := by
  intro ns hns
  induction hv with
  | scalar _ => simp [reread] at hns
  | list _ ih =>
      rw [reread, rereadItems_eq_map] at hns
      obtain ⟨y, hy, hwithin⟩ := Tree.within_list_marked.mp hns
      obtain ⟨x, hx, rfl⟩ := List.mem_map.mp hy
      exact ih x hx hwithin
  | @object ms hnames _ _ ih =>
      have htexts : ∀ e ∈ rereadMembers ms, e.1.IsText := fun e he => by
        obtain ⟨name, hname⟩ :=
          text_of_mem_rereadMembers (fun e he => (hnames e he).imp fun _ h => h.1) he
        exact Scalar.isText_of_eq_str ⟨_, hname⟩
      rw [reread] at hns
      rcases Tree.within_marked_marked.mp hns with ⟨-, rfl⟩ | ⟨e, he, hwithin⟩
      · exact namedApart_ofEntries htexts
      · obtain ⟨o, ho, hvalue, -⟩ := Members.mem_ofEntries he
        rw [rereadMembers_eq_map] at ho
        obtain ⟨m, hm, rfl⟩ := List.mem_map.mp ho
        rw [hvalue] at hwithin
        exact ih m hm hwithin

/-- A text is imported as the object that is read from it, if the names there are
texts already. -/
private theorem parse_of_readText {text : String} (hread : readText text = .ok v)
    (hobject : v.isObject = true) (hnames : NamesApart v) : parse text = .ok v := by
  rw [parse, hread, ok_bind, if_pos hobject, withTextNames_fixed hnames]
  rfl

/-! ## The two texts -/

/-- The JSON text of an object is imported as that object. -/
private theorem parse_json (hms : Json.Plain (.object ms)) :
    ∃ json, Json.write .indented (.object ms) = .ok json ∧
      parse json = .ok (.object ms) := by
  have hagree := Json.write_agrees .indented (.object ms)
  obtain ⟨json, hjson, hread⟩ :=
    hagree.ok_right ((Json.image_eq_self_iff hms.isWhole).mpr hms)
  refine ⟨json, hjson, parse_of_readText ?_ rfl (plain_namesApart hms)⟩
  rw [readText, hread (.inr hms.isWhole)]
  rfl

/-- The YAML text of an object is imported as what its texts are reread as. -/
private theorem parse_yaml (hms : Portable (.object ms)) :
    ∃ yaml, Yaml.write (.object ms) = .ok yaml ∧
      parse yaml = .ok (reread (.object ms)) := by
  cases ms with
  | nil => exact ⟨"\x7b\x7d\n", rfl, rfl⟩
  | cons e ms =>
      obtain ⟨yaml, hyaml, hread⟩ := read_write hms (List.cons_ne_nil e ms)
      refine ⟨yaml, hyaml, parse_of_readText ?_ rfl (reread_namesApart hms)⟩
      obtain ⟨k, v⟩ := e
      obtain ⟨name, hname, -⟩ :=
        ((madeOf_portable.object _).mp hms).1 _ (List.mem_cons_self ..)
      obtain rfl : k = .str name := hname
      obtain ⟨failure, hfailure⟩ := json_read_write hyaml
      rw [readText, hfailure]
      simp only [hread, pure_eq_ok]

/-! ## Two documents -/

private theorem portable_record {fields : List (String × Value)}
    (hnames : ∀ f ∈ fields, FitsLine f.1) (hnodup : (fields.map Prod.fst).Nodup)
    (hvalues : ∀ f ∈ fields, Portable f.2) : Portable (.record fields) := by
  refine .object (fun e he => ?_) ?_ fun e he => ?_
  · obtain ⟨f, hf, rfl⟩ := List.mem_map.mp he
    exact ⟨f.1, rfl, hnames f hf⟩
  · have htexts : Members.names (fields.map fun f => (Scalar.str f.1, f.2)) =
        (fields.map Prod.fst).map .str := by
      simp [Members.names]
    rw [htexts]
    exact List.Pairwise.map Scalar.str
      (fun _ _ hne heq => hne (Scalar.str.inj heq)) hnodup
  · obtain ⟨f, hf, rfl⟩ := List.mem_map.mp he
    exact hvalues f hf

private theorem portable_emptyObject : Portable .emptyObject :=
  .object (by simp) (by simp [Members.names]) (by simp)

/-- A document of which not all is exported. -/
def taggedDocument : Value :=
  .record [("openapi", .str "3.0.0"), ("tags", .list []), ("paths", .emptyObject),
    ("x-notes", .list [.str "yes: no\n", .int 12, .null])]

/-- The part of it that is exported. -/
def untaggedDocument : Value :=
  .record [("openapi", .str "3.0.0"), ("paths", .emptyObject),
    ("x-notes", .list [.str "yes: no\n", .int 12, .null])]

private theorem prune_tagged : prune taggedDocument = .ok untaggedDocument := rfl

private theorem portable_tagged : Portable taggedDocument := by
  refine portable_record ?_ (by decide) ?_
  · simp only [List.forall_mem_cons]
    exact ⟨by decide, by decide, by decide, by decide, by simp⟩
  · simp only [List.forall_mem_cons]
    refine ⟨.scalar trivial, .list (by simp), portable_emptyObject, .list ?_, by simp⟩
    have hwritable : isWritable 12 = true := Json.isWritable_of_natAbs_lt (by decide)
    simp only [List.forall_mem_cons]
    exact ⟨.scalar trivial, .scalar hwritable, .scalar trivial, by simp⟩

/-- A document with a title in two lines. -/
def nextLineDocument : Value :=
  .record [("openapi", .str "3.0.0"), ("info", .record
    [("title", .str "a\u0085b"), ("version", .str "1")]), ("paths", .emptyObject)]

private theorem prune_nextLine : prune nextLineDocument = .ok nextLineDocument := rfl

private theorem portable_nextLine : Portable nextLineDocument := by
  refine portable_record ?_ (by decide) ?_
  · simp only [List.forall_mem_cons]
    exact ⟨by decide, by decide, by decide, by simp⟩
  · simp only [List.forall_mem_cons]
    refine ⟨.scalar trivial, portable_record ?_ (by decide) ?_,
      portable_emptyObject, by simp⟩
    · simp only [List.forall_mem_cons]
      exact ⟨by decide, by decide, by simp⟩
    · simp only [List.forall_mem_cons]
      exact ⟨.scalar trivial, .scalar trivial, by simp⟩

/-! ## Documents that are read again -/

/-- Every document that JSON knows and that is exported is read again from its
JSON text: what is read is its pruned form, with the same members in the same
order in all objects. -/
theorem parse_toJson {document pruned : Value} (hdocument : Json.Plain document)
    (h : prune document = .ok pruned) :
    ∃ json, toJson document = .ok json ∧ parse json = .ok pruned := by
  obtain ⟨ms, rfl, hms⟩ := madeOf_plain.prune hdocument h
  obtain ⟨json, hjson, hread⟩ := parse_json hms
  refine ⟨json, ?_, hread⟩
  rw [toJson, h, ok_bind, hjson]

/-- A document without its tags is read again from its JSON text. -/
theorem parse_toJson_of_tagged :
    Json.Plain taggedDocument ∧ prune taggedDocument = .ok untaggedDocument ∧
    ∃ json, toJson taggedDocument = .ok json ∧ parse json = .ok untaggedDocument :=
  ⟨plain_of_portable portable_tagged, prune_tagged,
    parse_toJson (plain_of_portable portable_tagged) prune_tagged⟩

/-- A document that is exported is read again from the JSON text as its pruned form, and
from the YAML text as that form with its texts reread. The two are the same unless there
is a text with a next-line character in it that is written between single quotes. -/
theorem parse_exports {document pruned : Value} (hdocument : Portable document)
    (h : prune document = .ok pruned) :
    ∃ yaml json, toYaml document = .ok yaml ∧ toJson document = .ok json ∧
      parse json = .ok pruned ∧
      parse yaml = .ok (reread pruned) ∧
      (parse yaml = parse json ↔ ∀ text, HasText pruned text → Steady text) := by
  obtain ⟨ms, rfl, hms⟩ := madeOf_portable.prune hdocument h
  obtain ⟨yaml, hyaml, hreadYaml⟩ := parse_yaml hms
  obtain ⟨json, hjson, hreadJson⟩ := parse_json (plain_of_portable hms)
  refine ⟨yaml, json, ?_, ?_, hreadJson, hreadYaml, ?_⟩
  · rw [toYaml, h, ok_bind, hyaml]
  · rw [toJson, h, ok_bind, hjson]
  · rw [hreadYaml, hreadJson, Except.ok.injEq, reread_eq_self_iff hms]

/-- A document without its tags is read again from both of its texts. -/
theorem parse_exports_of_tagged :
    Portable taggedDocument ∧ prune taggedDocument = .ok untaggedDocument ∧
    ∃ yaml json, toYaml taggedDocument = .ok yaml ∧ toJson taggedDocument = .ok json ∧
      parse yaml = .ok untaggedDocument ∧ parse json = .ok untaggedDocument := by
  refine ⟨portable_tagged, prune_tagged, ?_⟩
  obtain ⟨yaml, json, hyaml, hjson, hreadJson, hreadYaml, -⟩ :=
    parse_exports portable_tagged prune_tagged
  exact ⟨yaml, json, hyaml, hjson, hreadYaml, hreadJson⟩

/-- A document that is its own pruned form, but is not what is read from its YAML
text. -/
theorem nextLine_lost : prune nextLineDocument = .ok nextLineDocument ∧
    ∃ yaml, toYaml nextLineDocument = .ok yaml ∧ parse yaml ≠ .ok nextLineDocument := by
  obtain ⟨yaml, hyaml, hread⟩ := parse_yaml portable_nextLine
  refine ⟨prune_nextLine, yaml, ?_, ?_⟩
  · rw [toYaml, prune_nextLine, ok_bind]
    exact hyaml
  · rw [hread, Ne, Except.ok.injEq]
    intro hself
    have hsteady := (reread_eq_self_iff portable_nextLine).mp hself "a\u0085b"
    have hwithin : Tree.Within nextLineDocument (.str "a\u0085b") :=
      .member (List.mem_cons_of_mem _ (List.mem_cons_self ..))
        (.member (List.mem_cons_self ..) (.here _))
    exact hsteady (.value hwithin) ⟨rfl, Char.ofNat 0x85, by decide, rfl⟩

end ApiWorkbench.Document
