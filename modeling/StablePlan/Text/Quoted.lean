import StablePlan.Text.Printable
import StablePlan.Text.Scan

/-!
Quoted texts. Written, a text stands in double quotes; the quote, the backslash and five control
characters have short escapes, and a character without a glyph of its own is shown by its code
point. Read, only the escapes for backslash, quote and line feed are known, and every other
character stands for itself.
-/

namespace StablePlan.Text

def hexDigits (code : Nat) : List Char := Nat.toDigits 16 code

/-- The written form of one character. -/
def escape (c : Char) : List Char :=
  if c = '"' then ['\\', '"']
  else if c = '\\' then ['\\', '\\']
  else if c = '\n' then ['\\', 'n']
  else if c = '\r' then ['\\', 'r']
  else if c = '\t' then ['\\', 't']
  else if c.toNat = 0 then ['\\', '0']
  else if needsCodePoint c then ['\\', 'u', '\x7b'] ++ hexDigits c.toNat ++ ['\x7d']
  else [c]

def quote (text : List Char) : List Char := '"' :: text.flatMap escape ++ ['"']

def unescape (c : Char) : Option Char :=
  if c = '\\' ∨ c = '"' then some c else if c = 'n' then some '\n' else none

/-- Reads the inside of a quoted text and its closing quote. -/
def scanQuotedBody : (text : List Char) → Option (Scan (List Char) text)
  | [] => none
  | '"' :: rest => some ⟨[], rest, Nat.lt_succ_self _⟩
  | '\\' :: c :: rest =>
    match unescape c, scanQuotedBody rest with
    | some d, some s => some ⟨d :: s.value, s.rest, Nat.lt_succ_of_lt (Nat.lt_succ_of_lt s.rest_lt)⟩
    | _, _ => none
  | ['\\'] => none
  | c :: rest =>
    match scanQuotedBody rest with
    | some s => some ⟨c :: s.value, s.rest, Nat.lt_succ_of_lt s.rest_lt⟩
    | none => none

def scanQuoted : (text : List Char) → Option (Scan (List Char) text)
  | '"' :: rest =>
    match scanQuotedBody rest with
    | some s => some ⟨s.value, s.rest, Nat.lt_succ_of_lt s.rest_lt⟩
    | none => none
  | _ => none

end StablePlan.Text
