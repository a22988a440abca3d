import Mathlib.Data.Rat.Defs
import Mathlib.Data.List.Forall2
import Std.Data.String.ToInt
import EffectMq.Library.Codes

/-! # JSON texts

The values of JSON, their compact texts and a parser. A program may splice texts it never parsed, so
the parser is shown right for every text that is put together from right parts: a text spells a value
when the parser reads it in front of whatever may follow it. How numbers are written is a parameter.
-/

/-- An object is its members in order. -/
inductive Json
  | null
  | bool (value : Bool)
  | num (value : ℚ)
  | str (value : String)
  | arr (elements : List Json)
  | obj (members : List (String × Json))

namespace Json
set_option autoImplicit false
set_option maxHeartbeats 250000

/-- The member of a name; the last one wins. -/
def member (name : String) (members : List (String × Json)) : Option Json :=
  members.reverse.lookup name

/-! ## Characters -/

def isSpace (c : Char) : Bool := c = ' ' || c = '\t' || c = '\n' || c = '\r'

def isNumeral (c : Char) : Bool :=
  c.isDigit || c = '-' || c = '+' || c = '.' || c = 'e' || c = 'E'

def skip (text : List Char) : List Char := text.dropWhile isSpace

def hexValue (c : Char) : Option ℕ :=
  if c.isDigit then some (c.toNat - 48)
  else if 97 ≤ c.toNat ∧ c.toNat ≤ 102 then some (c.toNat - 87)
  else if 65 ≤ c.toNat ∧ c.toNat ≤ 70 then some (c.toNat - 55)
  else none

/-- The character of four hexadecimal digits; the halves of a surrogate pair are none. -/
def hexChar (a b c d : Char) : Option Char := do
  let a ← hexValue a
  let b ← hexValue b
  let c ← hexValue c
  let d ← hexValue d
  let code := ((a * 16 + b) * 16 + c) * 16 + d
  if code.isValidChar then some (Char.ofNat code) else none

def unescape (c : Char) : Option Char :=
  if c = '\"' ∨ c = '\\' ∨ c = '/' then some c
  else if c = 'b' then some (Char.ofNat 8)
  else if c = 'f' then some (Char.ofNat 12)
  else if c = 'n' then some '\n'
  else if c = 'r' then some '\r'
  else if c = 't' then some '\t'
  else none

def push (c : Char) : Option (List Char × List Char) → Option (List Char × List Char) :=
  Option.map fun read => (c :: read.1, read.2)

/-- The rest of a string literal: its characters, and what follows the closing quote. -/
def chars : List Char → Option (List Char × List Char)
  | [] => none
  | '\"' :: rest => some ([], rest)
  | '\\' :: 'u' :: a :: b :: c :: d :: rest =>
    match hexChar a b c d with
    | none => none
    | some e => push e (chars rest)
  | '\\' :: c :: rest =>
    match unescape c with
    | none => none
    | some e => push e (chars rest)
  | c :: rest => if c.toNat < 32 then none else push c (chars rest)

/-! ## The parser -/

/-- How numbers are written, and read back by the parser and by a conversion from text. Only a number
that the program can hold comes back. -/
structure Numerals where
  holds : ℚ → Prop
  text : ℚ → List Char
  read : List Char → Option ℚ
  text_ne_nil : ∀ q, text q ≠ []
  isNumeral_of_mem : ∀ q, ∀ c ∈ text q, isNumeral c = true
  read_text : ∀ q, holds q → read (text q) = some q
  read_repr : ∀ n : ℤ, holds n → read n.repr.toList = some (n : ℚ)

variable (numerals : Numerals)

def literal : List Char → Option (Json × List Char)
  | 'n' :: 'u' :: 'l' :: 'l' :: rest => some (.null, rest)
  | 't' :: 'r' :: 'u' :: 'e' :: rest => some (.bool true, rest)
  | 'f' :: 'a' :: 'l' :: 's' :: 'e' :: rest => some (.bool false, rest)
  | _ => none

def number (text : List Char) : Option (Json × List Char) :=
  (numerals.read (text.takeWhile isNumeral)).map fun q => (.num q, text.dropWhile isNumeral)

mutual

/-- A value and the text after it. Each call spends fuel, twice a text's length is enough for it. -/
def value : ℕ → List Char → Option (Json × List Char)
  | 0, _ => none
  | fuel + 1, text =>
    match skip text with
    | [] => none
    | c :: rest =>
      if c = '\"' then (chars rest).map fun read => (.str (String.ofList read.1), read.2)
      else if c = '[' then
        match skip rest with
        | ']' :: rest => some (.arr [], rest)
        | _ => (elements fuel rest).map fun read => (.arr read.1, read.2)
      else if c = '{' then
        match skip rest with
        | '}' :: rest => some (.obj [], rest)
        | _ => (members fuel rest).map fun read => (.obj read.1, read.2)
      else if isNumeral c then number numerals (c :: rest)
      else literal (c :: rest)

/-- The elements up to the closing bracket. -/
def elements : ℕ → List Char → Option (List Json × List Char)
  | 0, _ => none
  | fuel + 1, text =>
    match value fuel text with
    | none => none
    | some (v, rest) =>
      match skip rest with
      | ',' :: rest => (elements fuel rest).map fun read => (v :: read.1, read.2)
      | ']' :: rest => some ([v], rest)
      | _ => none

/-- The members up to the closing brace. -/
def members : ℕ → List Char → Option (List (String × Json) × List Char)
  | 0, _ => none
  | fuel + 1, text =>
    match skip text with
    | '\"' :: rest =>
      match chars rest with
      | none => none
      | some (name, rest) =>
        match skip rest with
        | ':' :: rest =>
          match value fuel rest with
          | none => none
          | some (v, rest) =>
            match skip rest with
            | ',' :: rest =>
              (members fuel rest).map fun read => ((String.ofList name, v) :: read.1, read.2)
            | '}' :: rest => some ([(String.ofList name, v)], rest)
            | _ => none
        | _ => none
    | _ => none

end

def parseChars (text : List Char) : Option Json :=
  match value numerals (2 * text.length) text with
  | none => none
  | some (v, rest) => if skip rest = [] then some v else none

/-- `JSON.parse`; a syntax error is `none`. -/
def parse (text : String) : Option Json := parseChars numerals text.toList

/-! ## Texts that spell values -/

/-- What may follow a value: nothing that a numeral would go on with. -/
def Ends (rest : List Char) : Prop := ∀ c ∈ rest.head?, isNumeral c = false

theorem ends_nil : Ends [] := by
  intro c h
  cases h

theorem ends_cons {c : Char} (h : isNumeral c = false) (rest : List Char) : Ends (c :: rest) := by
  intro c' h'
  obtain rfl : c = c' := Option.some.inj h'
  exact h

/-- The parser reads the text as the value, whatever follows. -/
def Spells (text : List Char) (v : Json) : Prop :=
  ∀ fuel rest, 2 * text.length ≤ fuel → Ends rest →
    value numerals fuel (text ++ rest) = some (v, rest)

/-- The text is a string literal. -/
def Quotes (text : List Char) (s : String) : Prop :=
  ∃ body, text = '\"' :: body ∧ ∀ rest, chars (body ++ rest) = some (s.toList, rest)

theorem skip_cons {c : Char} (h : isSpace c = false) (rest : List Char) :
    skip (c :: rest) = c :: rest := by
  simp [skip, h]

variable {numerals}

theorem Spells.parseChars {text : List Char} {v : Json} (h : Spells numerals text v) :
    parseChars numerals text = some v := by
  have hread := h (2 * text.length) [] le_rfl ends_nil
  rw [List.append_nil] at hread
  rw [Json.parseChars, hread]
  simp [skip]

/-- A value never starts with a closing bracket. -/
theorem head_of_value {fuel : ℕ} {text : List Char} {read : Json × List Char}
    (h : value numerals fuel text = some read) : ∃ c rest, skip text = c :: rest ∧ c ≠ ']' := by
  cases fuel with
  | zero => simp [value] at h
  | succ fuel =>
    rw [value] at h
    cases hskip : skip text with
    | nil => simp [hskip] at h
    | cons c rest =>
      refine ⟨c, rest, rfl, ?_⟩
      rintro rfl
      simp [hskip, isNumeral, literal] at h

/-- A text whose first character opens no other kind of value. -/
theorem spells_numeral {text : List Char} {q : ℚ} (hne : text ≠ [])
    (hall : ∀ c ∈ text, isNumeral c = true) (hread : numerals.read text = some q) :
    Spells numerals text (.num q) := by
  intro fuel rest hfuel hends
  obtain ⟨c, tail, rfl⟩ := List.exists_cons_of_ne_nil hne
  obtain ⟨fuel, rfl⟩ : ∃ n, fuel = n + 1 := ⟨fuel - 1, by simp at hfuel; omega⟩
  have hc : isNumeral c = true := hall c List.mem_cons_self
  have hspace : isSpace c = false := by
    by_contra hne
    rw [Bool.not_eq_false] at hne
    simp only [isSpace, Bool.or_eq_true, decide_eq_true_eq] at hne
    rcases hne with ((rfl | rfl) | rfl) | rfl <;> revert hc <;> decide
  have hquote : c ≠ '\"' := by rintro rfl; revert hc; decide
  have hbracket : c ≠ '[' := by rintro rfl; revert hc; decide
  have hbrace : c ≠ '\x7b' := by rintro rfl; revert hc; decide
  have htake : ((c :: tail) ++ rest).takeWhile isNumeral = c :: tail := by
    rw [List.takeWhile_append_of_pos hall]
    cases rest with
    | nil => simp
    | cons d rest => simp [hends d rfl]
  have hdrop : ((c :: tail) ++ rest).dropWhile isNumeral = rest := by
    rw [List.dropWhile_append_of_pos hall]
    cases rest with
    | nil => simp
    | cons d rest => simp [hends d rfl]
  rw [List.cons_append] at htake hdrop ⊢
  rw [value, skip_cons hspace]
  simp only [if_neg hquote, if_neg hbracket, if_neg hbrace, if_pos hc]
  rw [number, htake, hdrop, hread]
  rfl

theorem spells_num {q : ℚ} (h : numerals.holds q) : Spells numerals (numerals.text q) (.num q) :=
  spells_numeral (numerals.text_ne_nil q) (numerals.isNumeral_of_mem q) (numerals.read_text q h)

theorem isNumeral_of_mem_repr {n : ℤ} {c : Char} (h : c ∈ n.repr.toList) : isNumeral c = true := by
  rcases Codes.digit_or_minus h with hdigit | rfl
  · simp [isNumeral, hdigit]
  · rfl

theorem repr_ne_nil (n : ℤ) : n.repr.toList ≠ [] := by
  cases n with
  | ofNat m =>
    rw [Int.repr, Nat.toList_repr]
    exact Nat.toDigits_ne_nil
  | negSucc m => simp [Int.repr]

theorem spells_repr {n : ℤ} (h : numerals.holds n) : Spells numerals n.repr.toList (.num n) :=
  spells_numeral (repr_ne_nil n) (fun _ h => isNumeral_of_mem_repr h) (numerals.read_repr n h)

theorem spells_natRepr {n : ℕ} (h : numerals.holds n) : Spells numerals n.repr.toList (.num n) := by
  rw [← Rat.intCast_natCast] at h
  have hspells : Spells numerals (n : ℤ).repr.toList (.num ((n : ℤ) : ℚ)) := spells_repr h
  rw [Rat.intCast_natCast] at hspells
  exact hspells

theorem spells_null : Spells numerals "null".toList .null := by
  intro fuel rest hfuel _
  obtain ⟨fuel, rfl⟩ : ∃ n, fuel = n + 1 := ⟨fuel - 1, by simp at hfuel; omega⟩
  rfl

def boolText : Bool → List Char
  | true => "true".toList
  | false => "false".toList

theorem spells_bool (b : Bool) : Spells numerals (boolText b) (.bool b) := by
  intro fuel rest hfuel _
  obtain ⟨fuel, rfl⟩ : ∃ n, fuel = n + 1 :=
    ⟨fuel - 1, by cases b <;> simp [boolText] at hfuel <;> omega⟩
  cases b <;> rfl

theorem Quotes.spells {text : List Char} {s : String} (h : Quotes text s) :
    Spells numerals text (.str s) := by
  obtain ⟨body, rfl, hbody⟩ := h
  intro fuel rest hfuel _
  obtain ⟨fuel, rfl⟩ : ∃ n, fuel = n + 1 := ⟨fuel - 1, by simp at hfuel; omega⟩
  rw [List.cons_append, value, skip_cons rfl]
  simp [hbody]

/-! ## Lists -/

/-- The texts with commas between them. -/
def commas : List (List Char) → List Char
  | [] => []
  | [text] => text
  | text :: texts => text ++ ',' :: commas texts

theorem commas_cons (text : List Char) {texts : List (List Char)} (h : texts ≠ []) :
    commas (text :: texts) = text ++ ',' :: commas texts := by
  cases texts with
  | nil => exact absurd rfl h
  | cons => rfl

def arrayText (texts : List (List Char)) : List Char := '[' :: (commas texts ++ [']'])

theorem elements_commas {texts : List (List Char)} {vs : List Json} (hne : texts ≠ [])
    (h : List.Forall₂ (Spells numerals) texts vs) (fuel : ℕ) (rest : List Char)
    (hfuel : 2 * (commas texts).length + 1 ≤ fuel) :
    elements numerals fuel (commas texts ++ ']' :: rest) = some (vs, rest) := by
  induction h generalizing fuel with
  | nil => exact absurd rfl hne
  | @cons text v texts vs hspells htail ih =>
    obtain ⟨fuel, rfl⟩ : ∃ n, fuel = n + 1 := ⟨fuel - 1, by omega⟩
    cases htail with
    | nil =>
      rw [commas] at hfuel ⊢
      rw [elements, hspells fuel (']' :: rest) (by omega) (ends_cons rfl rest)]
      rfl
    | cons hnext hmore =>
      rw [commas_cons text (List.cons_ne_nil _ _)] at hfuel ⊢
      rw [List.length_append, List.length_cons] at hfuel
      rw [List.append_assoc, List.cons_append, elements,
        hspells fuel _ (by omega) (ends_cons rfl _)]
      simp only [skip_cons (show isSpace ',' = false from rfl)]
      rw [ih (List.cons_ne_nil _ _) fuel (by omega)]
      rfl

theorem head_of_elements {fuel : ℕ} {text : List Char} {read : List Json × List Char}
    (h : elements numerals fuel text = some read) : ∃ c rest, skip text = c :: rest ∧ c ≠ ']' := by
  cases fuel with
  | zero => simp [elements] at h
  | succ fuel =>
    rw [elements] at h
    cases hv : value numerals fuel text with
    | none => simp [hv] at h
    | some first => exact head_of_value hv

theorem spells_array {texts : List (List Char)} {vs : List Json}
    (h : List.Forall₂ (Spells numerals) texts vs) : Spells numerals (arrayText texts) (.arr vs) := by
  intro fuel rest hfuel _
  obtain ⟨fuel, rfl⟩ : ∃ n, fuel = n + 1 := ⟨fuel - 1, by simp [arrayText] at hfuel; omega⟩
  rw [arrayText, List.cons_append, List.append_assoc, value, skip_cons rfl]
  cases texts with
  | nil =>
    cases h
    rfl
  | cons text texts =>
    have hread := elements_commas (List.cons_ne_nil _ _) h fuel rest
      (by simp [arrayText] at hfuel; omega)
    obtain ⟨c, tail, hskip, hc⟩ := head_of_elements hread
    simp [hskip, hc, hread]

/-- The text of a member: its name's literal, a colon and its value's text. -/
def memberText (entry : List Char × List Char) : List Char := entry.1 ++ ':' :: entry.2

def objectText (entries : List (List Char × List Char)) : List Char :=
  '\x7b' :: (commas (entries.map memberText) ++ ['\x7d'])

/-- A name and a value, written and meant. -/
def SpellsMember (numerals : Numerals) (entry : List Char × List Char) (m : String × Json) : Prop :=
  Quotes entry.1 m.1 ∧ Spells numerals entry.2 m.2

theorem SpellsMember.intro {text text' : List Char} {name : String} {v : Json}
    (hname : Quotes text name) (hvalue : Spells numerals text' v) :
    SpellsMember numerals (text, text') (name, v) := ⟨hname, hvalue⟩

theorem members_commas {entries : List (List Char × List Char)} {ms : List (String × Json)}
    (hne : entries ≠ []) (h : List.Forall₂ (SpellsMember numerals) entries ms) (fuel : ℕ)
    (rest : List Char) (hfuel : 2 * (commas (entries.map memberText)).length + 1 ≤ fuel) :
    members numerals fuel (commas (entries.map memberText) ++ '\x7d' :: rest) = some (ms, rest) := by
  induction h generalizing fuel with
  | nil => exact absurd rfl hne
  | @cons entry m entries ms hentry htail ih =>
    obtain ⟨fuel, rfl⟩ : ∃ n, fuel = n + 1 := ⟨fuel - 1, by omega⟩
    obtain ⟨⟨body, hname, hbody⟩, hvalue⟩ := hentry
    cases htail with
    | nil =>
      rw [List.map_singleton, commas, memberText, hname] at hfuel ⊢
      rw [List.length_append, List.length_cons, List.length_cons] at hfuel
      rw [List.append_assoc, List.cons_append, members, skip_cons rfl]
      simp only [hbody]
      rw [List.cons_append, skip_cons rfl]
      simp only [hvalue fuel ('\x7d' :: rest) (by omega) (ends_cons rfl rest), skip_cons
        (show isSpace '\x7d' = false from rfl), String.ofList_toList]
    | cons hnext hmore =>
      rw [List.map_cons, commas_cons _ (by simp), memberText, hname] at hfuel ⊢
      rw [List.length_append, List.length_append, List.length_cons, List.length_cons,
        List.length_cons] at hfuel
      rw [List.append_assoc, List.append_assoc, List.cons_append, members, skip_cons rfl]
      simp only [hbody]
      rw [List.cons_append, skip_cons rfl]
      simp only [List.cons_append, hvalue fuel _ (by omega) (ends_cons (show isNumeral ',' = false from rfl) _),
        skip_cons (show isSpace ',' = false from rfl)]
      rw [ih (List.cons_ne_nil _ _) fuel (by omega)]
      simp

theorem head_of_members {fuel : ℕ} {text : List Char} {read : List (String × Json) × List Char}
    (h : members numerals fuel text = some read) : ∃ rest, skip text = '\"' :: rest := by
  cases fuel with
  | zero => simp [members] at h
  | succ fuel =>
    rw [members] at h
    split at h
    next rest hskip => exact ⟨rest, hskip⟩
    next => cases h

theorem spells_object {entries : List (List Char × List Char)} {ms : List (String × Json)}
    (h : List.Forall₂ (SpellsMember numerals) entries ms) :
    Spells numerals (objectText entries) (.obj ms) := by
  intro fuel rest hfuel _
  obtain ⟨fuel, rfl⟩ : ∃ n, fuel = n + 1 := ⟨fuel - 1, by simp [objectText] at hfuel; omega⟩
  rw [objectText, List.cons_append, List.append_assoc, value, skip_cons rfl]
  cases entries with
  | nil =>
    cases h
    rfl
  | cons entry entries =>
    have hread := members_commas (List.cons_ne_nil _ _) h fuel rest
      (by simp [objectText] at hfuel; simp; omega)
    obtain ⟨tail, hskip⟩ := head_of_members hread
    rw [List.map_cons] at hread hskip
    simp [hskip, hread]

/-! ## Writing strings -/

/-- A way to write characters inside a string literal that the parser undoes. -/
def Escapes (escape : Char → List Char) : Prop :=
  ∀ c rest, chars (escape c ++ rest) = push c (chars rest)

def quote (escape : Char → List Char) (s : String) : List Char :=
  '\"' :: (s.toList.flatMap escape ++ ['\"'])

theorem chars_flatMap {escape : Char → List Char} (h : Escapes escape) (cs rest : List Char) :
    chars (cs.flatMap escape ++ '\"' :: rest) = some (cs, rest) := by
  induction cs with
  | nil => rfl
  | cons c cs ih =>
    rw [List.flatMap_cons, List.append_assoc, h, ih]
    rfl

theorem quotes_quote {escape : Char → List Char} (h : Escapes escape) (s : String) :
    Quotes (quote escape s) s := by
  refine ⟨s.toList.flatMap escape ++ ['\"'], rfl, fun rest => ?_⟩
  rw [List.append_assoc]
  exact chars_flatMap h s.toList rest

/-- A character below U+0100 by its code. -/
def unicodeText (c : Char) : List Char :=
  ['\\', 'u', '0', '0', Nat.digitChar (c.toNat / 16), Nat.digitChar (c.toNat % 16)]

/-- A literal put together from a quote, the text itself and a quote. -/
def quoted (s : String) : List Char := '\"' :: (s.toList ++ ['\"'])

def isPlain (c : Char) : Bool := !(c = '\"') && !(c = '\\') && 32 ≤ c.toNat

theorem chars_plain {c : Char} (hquote : c ≠ '\"') (hslash : c ≠ '\\') (h : 32 ≤ c.toNat)
    (rest : List Char) : chars (c :: rest) = push c (chars rest) := by
  rw [chars]
  · rw [if_neg (by omega)]
  · exact fun hc => hquote hc
  · exact fun _ _ _ _ _ hc => absurd hc hslash
  · exact fun _ _ hc => absurd hc hslash

/-- Nothing in a plain text needs an escape. -/
theorem quotes_quoted {s : String} (h : s.toList.all isPlain = true) : Quotes (quoted s) s := by
  refine ⟨s.toList ++ ['\"'], rfl, fun rest => ?_⟩
  rw [List.append_assoc]
  generalize s.toList = cs at h
  induction cs with
  | nil => rfl
  | cons c cs ih =>
    rw [List.all_cons, Bool.and_eq_true] at h
    obtain ⟨hc, hcs⟩ := h
    simp only [isPlain, Bool.and_eq_true, Bool.not_eq_true', decide_eq_false_iff_not,
      decide_eq_true_eq] at hc
    rw [List.cons_append, chars_plain hc.1.1 hc.1.2 hc.2, ih hcs]
    rfl

/-- The characters that `JSON.stringify` escapes. -/
def escape (c : Char) : List Char :=
  if c = '\"' then ['\\', '\"']
  else if c = '\\' then ['\\', '\\']
  else if c = Char.ofNat 8 then ['\\', 'b']
  else if c = Char.ofNat 12 then ['\\', 'f']
  else if c = '\n' then ['\\', 'n']
  else if c = '\r' then ['\\', 'r']
  else if c = '\t' then ['\\', 't']
  else if c.toNat < 32 then unicodeText c
  else [c]

/-- Lua's `cjson.encode` also escapes the slash and the delete character. -/
def cjsonEscape (c : Char) : List Char :=
  if c = '/' then ['\\', '/']
  else if c = Char.ofNat 127 then unicodeText c
  else escape c

theorem hexValue_digitChar : ∀ n < 16, hexValue (Nat.digitChar n) = some n := by decide

theorem hexChar_unicodeText {c : Char} (h : c.toNat < 256) :
    hexChar '0' '0' (Nat.digitChar (c.toNat / 16)) (Nat.digitChar (c.toNat % 16)) = some c := by
  have hzero : hexValue '0' = some 0 := by decide
  have hcode : ((0 * 16 + 0) * 16 + c.toNat / 16) * 16 + c.toNat % 16 = c.toNat := by omega
  have hvalid : c.toNat.isValidChar := by
    left
    omega
  unfold hexChar
  rw [hzero, hexValue_digitChar _ (by omega), hexValue_digitChar _ (by omega)]
  simp only [Option.bind_eq_bind, Option.bind_some]
  rw [hcode, if_pos hvalid, Char.ofNat_toNat]

theorem chars_unicodeText {c : Char} (h : c.toNat < 256) (rest : List Char) :
    chars (unicodeText c ++ rest) = push c (chars rest) := by
  simp [unicodeText, chars, hexChar_unicodeText h]

theorem escapes_escape : Escapes escape := by
  intro c rest
  unfold escape
  split_ifs with hquote hslash hb hf hn hr ht hcontrol
  · subst hquote; rfl
  · subst hslash; rfl
  · subst hb; rfl
  · subst hf; rfl
  · subst hn; rfl
  · subst hr; rfl
  · subst ht; rfl
  · exact chars_unicodeText (by omega) rest
  · exact chars_plain hquote hslash (by omega) rest

theorem escapes_cjsonEscape : Escapes cjsonEscape := by
  intro c rest
  unfold cjsonEscape
  split_ifs with hslash hdelete
  · subst hslash; rfl
  · subst hdelete
    exact chars_unicodeText (by decide) rest
  · exact escapes_escape c rest

/-! ## Writing values -/

variable (numerals)

mutual

def stringifyChars : Json → List Char
  | .null => "null".toList
  | .bool b => boolText b
  | .num q => numerals.text q
  | .str s => quote escape s
  | .arr vs => arrayText (stringifyElements vs)
  | .obj ms => objectText (stringifyMembers ms)

def stringifyElements : List Json → List (List Char)
  | [] => []
  | v :: vs => stringifyChars v :: stringifyElements vs

def stringifyMembers : List (String × Json) → List (List Char × List Char)
  | [] => []
  | (name, v) :: ms => (quote escape name, stringifyChars v) :: stringifyMembers ms

end

/-- `JSON.stringify`. -/
def stringify (v : Json) : String := String.ofList (stringifyChars numerals v)

mutual

/-- Every number in the value is one the program can hold. -/
def Held : Json → Prop
  | .null => True
  | .bool _ => True
  | .num q => numerals.holds q
  | .str _ => True
  | .arr vs => HeldElements vs
  | .obj ms => HeldMembers ms

def HeldElements : List Json → Prop
  | [] => True
  | v :: vs => Held v ∧ HeldElements vs

def HeldMembers : List (String × Json) → Prop
  | [] => True
  | m :: ms => Held m.2 ∧ HeldMembers ms

end

@[simp] theorem held_null : Held numerals .null := by
  rw [Held]
  trivial

@[simp] theorem held_bool (b : Bool) : Held numerals (.bool b) := by
  rw [Held]
  trivial

@[simp] theorem held_str (s : String) : Held numerals (.str s) := by
  rw [Held]
  trivial

@[simp] theorem held_num (q : ℚ) : Held numerals (.num q) ↔ numerals.holds q := by rw [Held]

@[simp] theorem held_obj (ms : List (String × Json)) :
    Held numerals (.obj ms) ↔ ∀ m ∈ ms, Held numerals m.2 := by
  rw [Held]
  induction ms with
  | nil => simp [HeldMembers]
  | cons m ms ih => simp [HeldMembers, ih]

mutual

theorem spells_stringify : ∀ v : Json, Held numerals v → Spells numerals (stringifyChars numerals v) v
  | .null, _ => by
    rw [stringifyChars]
    exact spells_null
  | .bool b, _ => by
    rw [stringifyChars]
    exact spells_bool b
  | .num q, h => by
    rw [stringifyChars]
    rw [Held] at h
    exact spells_num h
  | .str s, _ => by
    rw [stringifyChars]
    exact (quotes_quote escapes_escape s).spells
  | .arr vs, h => by
    rw [stringifyChars]
    rw [Held] at h
    exact spells_array (spells_stringifyElements vs h)
  | .obj ms, h => by
    rw [stringifyChars]
    rw [Held] at h
    exact spells_object (spells_stringifyMembers ms h)

theorem spells_stringifyElements : ∀ vs : List Json, HeldElements numerals vs →
    List.Forall₂ (Spells numerals) (stringifyElements numerals vs) vs
  | [], _ => by
    rw [stringifyElements]
    exact .nil
  | v :: vs, h => by
    rw [stringifyElements]
    rw [HeldElements] at h
    exact .cons (spells_stringify v h.1) (spells_stringifyElements vs h.2)

theorem spells_stringifyMembers : ∀ ms : List (String × Json), HeldMembers numerals ms →
    List.Forall₂ (SpellsMember numerals) (stringifyMembers numerals ms) ms
  | [], _ => by
    rw [stringifyMembers]
    exact .nil
  | (name, v) :: ms, h => by
    rw [stringifyMembers]
    rw [HeldMembers] at h
    exact .cons ⟨quotes_quote escapes_escape name, spells_stringify v h.1⟩
      (spells_stringifyMembers ms h.2)

end

/-- `JSON.parse` inverts `JSON.stringify`. -/
theorem parse_stringify {v : Json} (h : Held numerals v) :
    parse numerals (stringify numerals v) = some v := by
  rw [parse, stringify, String.toList_ofList]
  exact (spells_stringify numerals v h).parseChars

/-! ## Numerals exist -/

/-- Whole numbers as plain decimals. -/
def wholes : Numerals where
  holds q := q.den = 1
  text q := q.num.repr.toList
  read text := (String.ofList text).toInt?.map fun n : ℤ => (n : ℚ)
  text_ne_nil q := repr_ne_nil q.num
  isNumeral_of_mem q c h := isNumeral_of_mem_repr h
  read_text q h := by
    rw [String.ofList_toList, Int.toInt?_repr, Option.map_some, Rat.coe_int_num_of_den_eq_one h]
  read_repr n _ := by
    rw [String.ofList_toList, Int.toInt?_repr, Option.map_some]

end Json
