import Mathlib.Data.List.Basic
import ApiWorkbench.Proofs.TextParts
import ApiWorkbench.Reference.Pointer

/-!
# Names in pointers

A pointer spells a name of the document: a tilde and a slash have escapes of their own,
a percent sign can only be written as the byte that it is, and every character may be
given by its bytes. Reading a segment that spells a name gives the name back. Percent
encoding is undone in runs of ASCII characters, while one character may take up to four
bytes, so it has to be shown that no run ends inside a character.

## Main results

* `decodeUtf8_append`: bytes of a character are read as that character.
* `percentDecode_spelled`: a text that spells a name in percent encoding is
  read as that name.
* `segments_spelled`: the segments of a pointer are the names that it spells.
-/

namespace ApiWorkbench.Reference

open Text

/-- Bytes, each written as a percent sign and two hexadecimal digits. -/
inductive SpellsBytes : List UInt8 → List Char → Prop where
  | nil : SpellsBytes [] []
  | cons {b : UInt8} {high low : Char} {h l : Nat} {bytes : List UInt8}
      {text : List Char} :
      hexDigit? high = some h → hexDigit? low = some l → b.toNat = 16 * h + l →
        SpellsBytes bytes text →
      SpellsBytes (b :: bytes) ('%' :: high :: low :: text)

/-- A name, written so that it can stand in a pointer. -/
inductive Spells : List Char → List Char → Prop where
  | nil : Spells [] []
  | plain {c : Char} {name text : List Char} :
      c ≠ '~' → c ≠ '/' → c ≠ '%' → Spells name text → Spells (c :: name) (c :: text)
  | tilde {name text : List Char} : Spells name text →
      Spells ('~' :: name) ('~' :: '0' :: text)
  | slash {name text : List Char} : Spells name text →
      Spells ('/' :: name) ('~' :: '1' :: text)
  | bytes {c : Char} {name digits text : List Char} :
      SpellsBytes (String.utf8EncodeChar c) digits → Spells name text →
        Spells (c :: name) (digits ++ text)

/-- A name in percent encoding. -/
inductive PercentSpells : List Char → List Char → Prop where
  | nil : PercentSpells [] []
  | plain {c : Char} {name text : List Char} :
      c ≠ '%' → PercentSpells name text → PercentSpells (c :: name) (c :: text)
  | bytes {c : Char} {name digits text : List Char} :
      SpellsBytes (String.utf8EncodeChar c) digits → PercentSpells name text →
        PercentSpells (c :: name) (digits ++ text)

/-! ## One way of spelling a name -/

/-- A character of a name, written for a pointer. -/
def spellChar : Char → List Char
  | '~' => ['~', '0']
  | '/' => ['~', '1']
  | '%' => ['%', '2', '5']
  | c => [c]

/-- A name, written for a pointer with no more escapes than it needs. -/
def spell (name : String) : String :=
  String.ofList (name.toList.flatMap spellChar)

/-- A name without characters that have escapes is spelled by itself. -/
theorem spells_self {text : List Char} (h : ∀ c ∈ text, c ≠ '~' ∧ c ≠ '/' ∧ c ≠ '%') :
    Spells text text := by
  induction text with
  | nil => exact .nil
  | cons c text ih =>
      rw [List.forall_mem_cons] at h
      exact (ih h.2).plain h.1.1 h.1.2.1 h.1.2.2

theorem spells_spell (name : String) : Spells name.toList (spell name).toList := by
  rw [spell, String.toList_ofList]
  induction name.toList with
  | nil => exact .nil
  | cons c name ih =>
      rw [List.flatMap_cons]
      unfold spellChar
      split
      · exact ih.tilde
      · exact ih.slash
      · exact ih.bytes (.cons (h := 2) (l := 5) rfl rfl rfl .nil :
          SpellsBytes _ ['%', '2', '5'])
      · exact ih.plain ‹_› ‹_› ‹_›

/-! ## Bytes of characters -/

/-- The codes of characters; those in between belong to surrogates. -/
private theorem toNat_bounds (c : Char) :
    c.toNat < 0xd800 ∨ (0xdfff < c.toNat ∧ c.toNat < 0x110000) := by
  have h := c.valid
  simpa [UInt32.isValidChar, Nat.isValidChar] using h

private theorem bytes_ascii {c : Char} (h : c.toNat < 0x80) :
    (String.utf8EncodeChar c).map UInt8.toNat = [c.toNat] := by
  have hn : c.val.toNat = c.toNat := rfl
  rw [String.utf8EncodeChar]
  simp only [hn]
  rw [if_pos (by omega)]
  simp
  omega

private theorem bytes_two {c : Char} (h : 0x80 ≤ c.toNat) (h' : c.toNat < 0x800) :
    (String.utf8EncodeChar c).map UInt8.toNat =
      [c.toNat / 64 + 0xc0, c.toNat % 64 + 0x80] := by
  have hn : c.val.toNat = c.toNat := rfl
  rw [String.utf8EncodeChar]
  simp only [hn]
  rw [if_neg (by omega), if_pos (by omega)]
  simp
  omega

private theorem bytes_three {c : Char} (h : 0x800 ≤ c.toNat) (h' : c.toNat < 0x10000) :
    (String.utf8EncodeChar c).map UInt8.toNat =
      [c.toNat / 4096 + 0xe0, c.toNat / 64 % 64 + 0x80, c.toNat % 64 + 0x80] := by
  have hn : c.val.toNat = c.toNat := rfl
  rw [String.utf8EncodeChar]
  simp only [hn]
  rw [if_neg (by omega), if_neg (by omega), if_pos (by omega)]
  simp
  omega

private theorem bytes_four {c : Char} (h : 0x10000 ≤ c.toNat) :
    (String.utf8EncodeChar c).map UInt8.toNat =
      [c.toNat / 262144 + 0xf0, c.toNat / 4096 % 64 + 0x80, c.toNat / 64 % 64 + 0x80,
        c.toNat % 64 + 0x80] := by
  have hn : c.val.toNat = c.toNat := rfl
  have hc := toNat_bounds c
  rw [String.utf8EncodeChar]
  simp only [hn]
  rw [if_neg (by omega), if_neg (by omega), if_neg (by omega)]
  simp
  omega

private theorem decodeUtf8_two {a b : Nat} (ha : 0x80 ≤ a) (ha' : a < 0xe0)
    (hb : mayFollowLead a b = true) (rest : List Nat) : decodeUtf8 (a :: b :: rest) =
    Char.ofNat ((a - 0xc0) * 64 + (b - 0x80)) :: decodeUtf8 rest := by
  rw [decodeUtf8.eq_def]
  dsimp only
  rw [if_neg (by omega), hb, if_neg (by decide), if_pos ha']

private theorem decodeUtf8_three {a b c : Nat} (ha : 0xe0 ≤ a)
    (ha' : a < 0xf0) (hb : mayFollowLead a b = true) (hc : isContinuationByte c = true)
    (rest : List Nat) :
    decodeUtf8 (a :: b :: c :: rest) =
      Char.ofNat (((a - 0xe0) * 64 + (b - 0x80)) * 64 + (c - 0x80)) ::
        decodeUtf8 rest := by
  rw [decodeUtf8.eq_def]
  dsimp only
  rw [if_neg (by omega), hb, if_neg (by decide), if_neg (by omega), hc,
    if_neg (by decide), if_pos ha']

private theorem decodeUtf8_four {a b c d : Nat}
    (ha : 0xf0 ≤ a) (hb : mayFollowLead a b = true) (hc : isContinuationByte c = true)
    (hd : isContinuationByte d = true) (rest : List Nat) :
    decodeUtf8 (a :: b :: c :: d :: rest) =
      Char.ofNat ((((a - 0xf0) * 64 + (b - 0x80)) * 64 + (c - 0x80)) * 64 +
        (d - 0x80)) :: decodeUtf8 rest := by
  rw [decodeUtf8.eq_def]
  dsimp only
  rw [if_neg (by omega), hb, if_neg (by decide), if_neg (by omega), hc,
    if_neg (by decide), if_neg (by omega), hd, if_neg (by decide)]

private theorem isContinuationByte_add (n : Nat) :
    isContinuationByte (n % 64 + 0x80) = true := by
  simp [isContinuationByte]
  omega

/-- Bytes of a character are read as that character. -/
theorem decodeUtf8_append (c : Char) (rest : List Nat) :
    decodeUtf8 ((String.utf8EncodeChar c).map UInt8.toNat ++ rest) =
      c :: decodeUtf8 rest := by
  have hc := toNat_bounds c
  rcases Nat.lt_or_ge c.toNat 0x80 with h | h
  · rw [bytes_ascii h, List.cons_append, List.nil_append, decodeUtf8.eq_def]
    cases rest with
    | nil => simp [decodeUtf8, h]
    | cons b rest => simp [h]
  rcases Nat.lt_or_ge c.toNat 0x800 with h' | h'
  · have hlead : mayFollowLead (c.toNat / 64 + 0xc0) (c.toNat % 64 + 0x80) = true := by
      rw [mayFollowLead, if_neg (by omega), if_pos (by omega)]
      exact isContinuationByte_add _
    have hcode : (c.toNat / 64 + 0xc0 - 0xc0) * 64 + (c.toNat % 64 + 0x80 - 0x80) =
        c.toNat := by
      omega
    simp only [bytes_two h h', List.cons_append, List.nil_append]
    rw [decodeUtf8_two (by omega) (by omega) hlead, hcode, Char.ofNat_toNat]
  rcases Nat.lt_or_ge c.toNat 0x10000 with h'' | h''
  · have hlead : mayFollowLead (c.toNat / 4096 + 0xe0) (c.toNat / 64 % 64 + 0x80) =
        true := by
      simp only [mayFollowLead, isContinuationByte]
      grind
    have hcode :
        ((c.toNat / 4096 + 0xe0 - 0xe0) * 64 + (c.toNat / 64 % 64 + 0x80 - 0x80)) * 64 +
        (c.toNat % 64 + 0x80 - 0x80) = c.toNat := by
      omega
    simp only [bytes_three h' h'', List.cons_append, List.nil_append]
    rw [decodeUtf8_three (by omega) (by omega) hlead (isContinuationByte_add _), hcode,
      Char.ofNat_toNat]
  · have hlead : mayFollowLead (c.toNat / 262144 + 0xf0) (c.toNat / 4096 % 64 + 0x80) =
        true := by
      rcases Nat.lt_or_ge c.toNat 0x100000 with hlow | hlow
      · simp only [mayFollowLead, isContinuationByte]
        grind
      · have hlast : c.toNat / 262144 = 4 := by omega
        simp [mayFollowLead, hlast]
        omega
    have hcode : (((c.toNat / 262144 + 0xf0 - 0xf0) * 64 +
        (c.toNat / 4096 % 64 + 0x80 - 0x80)) * 64 + (c.toNat / 64 % 64 + 0x80 - 0x80)) *
        64 + (c.toNat % 64 + 0x80 - 0x80) = c.toNat := by
      omega
    simp only [bytes_four h'', List.cons_append, List.nil_append]
    rw [decodeUtf8_four (by omega) hlead (isContinuationByte_add _)
      (isContinuationByte_add _), hcode, Char.ofNat_toNat]

/-! ## Percent encoding -/

/-- A hexadecimal digit is an ASCII character, and none that means something in a
pointer. -/
private theorem hexDigit_plain {c : Char} {d : Nat} (h : hexDigit? c = some d) :
    c.toNat < 0x80 ∧ c ≠ '~' ∧ c ≠ '/' := by
  have hrange : ('0' ≤ c ∧ c ≤ '9') ∨ ('a' ≤ c ∧ c ≤ 'f') ∨ ('A' ≤ c ∧ c ≤ 'F') := by
    unfold hexDigit? at h
    grind
  have hle : ∀ a b : Char, a ≤ b ↔ a.toNat ≤ b.toNat := fun a b => Iff.rfl
  simp only [hle, Char.reduceToNat] at hrange
  refine ⟨by omega, ?_, ?_⟩ <;>
  · rintro rfl
    simp at hrange

/-- The characters of a percent encoding are ASCII, and none of them means
something in a pointer. -/
private theorem SpellsBytes.plain {bytes : List UInt8} {digits : List Char}
    (h : SpellsBytes bytes digits) :
    ∀ c ∈ digits, c.toNat < 0x80 ∧ c ≠ '~' ∧ c ≠ '/' := by
  induction h with
  | nil => simp
  | cons hhigh hlow _ _ ih =>
      simp only [List.forall_mem_cons]
      exact ⟨by decide, hexDigit_plain hhigh, hexDigit_plain hlow, ih⟩

private theorem percentBytes_cons {c : Char} (h : c ≠ '%') (text : List Char) :
    percentBytes (c :: text) = c.toNat :: percentBytes text := by
  rw [percentBytes]
  exact fun _ _ _ hc => absurd hc h

/-- A percent encoding spells its bytes, whatever follows it. -/
private theorem SpellsBytes.percentBytes_append {bytes : List UInt8}
    {digits : List Char} (h : SpellsBytes bytes digits) (text : List Char) :
    percentBytes (digits ++ text) = bytes.map UInt8.toNat ++ percentBytes text := by
  induction h with
  | nil => rfl
  | cons hhigh hlow hbyte _ ih =>
      simp only [List.cons_append, percentBytes, hhigh, hlow, ih, hbyte, List.map_cons]

/-- A name is spelled by ASCII characters alone. -/
private def SpellsRun (name run : List Char) : Prop :=
  PercentSpells name run ∧ ∀ c ∈ run, c.toNat < 0x80

private theorem PercentSpells.append {name text name' text' : List Char}
    (h : PercentSpells name text) (h' : PercentSpells name' text') :
    PercentSpells (name ++ name') (text ++ text') := by
  induction h with
  | nil => exact h'
  | plain hc _ ih => exact ih.plain hc
  | bytes hdigits _ ih =>
      rw [List.append_assoc]
      exact ih.bytes hdigits

/-- A run of ASCII characters is read as the name that it spells. -/
private theorem decodeUtf8_run {name run : List Char} (h : SpellsRun name run) :
    decodeUtf8 (percentBytes run) = name := by
  obtain ⟨hspells, hascii⟩ := h
  induction hspells with
  | nil => rfl
  | @plain c name text hc _ ih =>
      rw [List.forall_mem_cons] at hascii
      have hbytes : [c.toNat] = (String.utf8EncodeChar c).map UInt8.toNat :=
        (bytes_ascii hascii.1).symm
      rw [percentBytes_cons hc, ← List.singleton_append, hbytes,
        decodeUtf8_append, ih hascii.2]
  | bytes hdigits _ ih =>
      rw [List.forall_mem_append] at hascii
      rw [hdigits.percentBytes_append, decodeUtf8_append, ih hascii.2]

/-- ASCII characters join the run that is read. -/
private theorem percentDecodeFrom_append {run : List Char}
    (h : ∀ c ∈ run, c.toNat < 0x80) (pending text : List Char) :
    percentDecodeFrom pending (run ++ text) =
      percentDecodeFrom (run.reverse ++ pending) text := by
  induction run generalizing pending with
  | nil => rfl
  | cons c run ih =>
      rw [List.forall_mem_cons] at h
      rw [List.cons_append, percentDecodeFrom, if_pos h.1, ih h.2, List.reverse_cons,
        List.append_assoc, List.singleton_append]

private theorem percentDecodeFrom_spelled {name text : List Char}
    (h : PercentSpells name text) :
    ∀ before pending, SpellsRun before pending.reverse →
      percentDecodeFrom pending text = before ++ name := by
  induction h with
  | nil =>
      intro before pending hrun
      rw [percentDecodeFrom, decodeUtf8_run hrun, List.append_nil]
  | @plain c name text hc _ ih =>
      intro before pending hrun
      by_cases hascii : c.toNat < 0x80
      · have hnext : SpellsRun (before ++ [c]) (c :: pending).reverse := by
          rw [List.reverse_cons]
          exact ⟨hrun.1.append
            (.plain hc .nil), by simpa [hascii, or_imp, forall_and] using hrun.2⟩
        rw [percentDecodeFrom, if_pos hascii, ih _ _ hnext, List.append_assoc,
          List.singleton_append]
      · have hnew : percentDecodeFrom [] text = name := ih [] [] ⟨.nil, by simp⟩
        rw [percentDecodeFrom, if_neg hascii, decodeUtf8_run hrun, hnew]
  | @bytes c name digits text hdigits _ ih =>
      intro before pending hrun
      have hascii : ∀ c ∈ digits, c.toNat < 0x80 := fun c hc => (hdigits.plain c hc).1
      have hnext : SpellsRun (before ++ [c]) (digits.reverse ++ pending).reverse := by
        rw [List.reverse_append, List.reverse_reverse]
        refine ⟨hrun.1.append ?_, fun d hd =>
          (List.mem_append.mp hd).elim (hrun.2 d) (hascii d)⟩
        simpa using (PercentSpells.nil.bytes hdigits)
      rw [percentDecodeFrom_append hascii, ih _ _ hnext, List.append_assoc,
        List.singleton_append]

/-- A spelling without a percent sign is the name itself. -/
private theorem PercentSpells.eq_of_no_percent {name text : List Char}
    (h : PercentSpells name text) (hnone : '%' ∉ text) : text = name := by
  induction h with
  | nil => rfl
  | plain _ _ ih =>
      rw [List.mem_cons, not_or] at hnone
      rw [ih hnone.2]
  | @bytes c _ _ _ hdigits _ _ =>
      cases hbytes : String.utf8EncodeChar c with
      | nil => exact absurd hbytes (String.utf8EncodeChar_ne_nil)
      | cons b rest =>
          rw [hbytes] at hdigits
          cases hdigits with
          | cons => simp at hnone

/-- A text that spells a name in percent encoding is read as that name. -/
theorem percentDecode_spelled {name text : List Char} (h : PercentSpells name text) :
    percentDecode (String.ofList text) = String.ofList name := by
  rw [percentDecode, String.toList_ofList]
  split
  · rw [percentDecodeFrom_spelled h [] [] ⟨.nil, by simp⟩, List.nil_append]
  · rename_i hnone
    rw [h.eq_of_no_percent (by simpa using hnone)]

/-! ## Segments -/

private theorem unescape_cons {c : Char} (h : c ≠ '~') (text : List Char) :
    unescape (c :: text) = c :: unescape text := by
  rw [unescape]
  · exact fun _ hc => absurd hc h
  · exact fun _ hc => absurd hc h

private theorem unescape_append {plain : List Char} (h : '~' ∉ plain)
    (text : List Char) :
    unescape (plain ++ text) = plain ++ unescape text := by
  induction plain with
  | nil => rfl
  | cons c plain ih =>
      rw [List.mem_cons, not_or] at h
      rw [List.cons_append, unescape_cons (Ne.symm h.1), ih h.2, List.cons_append]

/-- Without the escapes of a pointer a name is left in percent encoding. -/
private theorem percentSpells_unescape {name text : List Char} (h : Spells name text) :
    PercentSpells name (unescape text) := by
  induction h with
  | nil => exact .nil
  | plain htilde _ hpercent _ ih =>
      rw [unescape_cons htilde]
      exact ih.plain hpercent
  | tilde _ ih => exact ih.plain (by decide)
  | slash _ ih => exact ih.plain (by decide)
  | bytes hdigits _ ih =>
      rw [unescape_append fun hmem => (hdigits.plain _ hmem).2.1 rfl]
      exact ih.bytes hdigits

/-- A name that is spelled has no slash in it. -/
theorem Spells.no_slash {name text : List Char} (h : Spells name text) :
    '/' ∉ text := by
  induction h with
  | nil => simp
  | plain _ hslash _ _ ih => simpa [hslash.symm] using ih
  | tilde _ ih => simpa using ih
  | slash _ ih => simpa using ih
  | bytes hdigits _ ih =>
      rw [List.mem_append, not_or]
      exact ⟨fun hmem => (hdigits.plain _ hmem).2.2 rfl, ih⟩

theorem Spells.ne_nil {name text : List Char} (h : Spells name text)
    (hname : name ≠ []) : text ≠ [] := by
  cases h with
  | nil => contradiction
  | @bytes c _ digits _ hdigits _ =>
      intro hnil
      rw [List.append_eq_nil_iff] at hnil
      obtain rfl := hnil.1
      generalize hbytes : String.utf8EncodeChar c = bytes at hdigits
      cases hdigits
      exact String.utf8EncodeChar_ne_nil hbytes
  | _ => simp

/-- Names, each spelled after a slash, with a number sign in front. -/
def pointerTo (texts : List (List Char)) : String :=
  String.ofList ('#' :: texts.flatMap ('/' :: ·))

/-- The segments of a pointer are the names that it spells; none of them may be
empty. -/
theorem segments_spelled {names texts : List (List Char)}
    (h : List.Forall₂ Spells names texts) (hnames : ∀ name ∈ names, name ≠ []) :
    segments (pointerTo texts) = names.map String.ofList := by
  have hnone : ∀ text ∈ texts, '/' ∉ text := by
    induction h with
    | nil => simp
    | cons hspells _ ih =>
        rw [List.forall_mem_cons] at hnames ⊢
        exact ⟨hspells.no_slash, ih hnames.2⟩
  have hsplit : splitAt '/' (texts.flatMap ('/' :: ·)) = [] :: texts := by
    simpa using splitAt_flatMap (by simp : '/' ∉ ([] : List Char)) hnone
  have hpieces : segments (pointerTo texts) =
      ((splitAt '/' (texts.flatMap ('/' :: ·))).filter fun part => !part.isEmpty).map
          fun part =>
        percentDecode (String.ofList (unescape part)) := by
    rw [segments, pointerTo, String.toList_ofList]
    rfl
  rw [hpieces, hsplit, List.filter_cons_of_neg (by simp)]
  clear hnone hsplit hpieces
  induction h with
  | nil => rfl
  | cons hspells _ ih =>
      rw [List.forall_mem_cons] at hnames
      rw [List.filter_cons_of_pos (by simpa using hspells.ne_nil hnames.1),
        List.map_cons, List.map_cons, ih hnames.2,
        percentDecode_spelled (percentSpells_unescape hspells)]

end ApiWorkbench.Reference
