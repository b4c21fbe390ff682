import Botscript.Text.Bytes
import Botscript.Text.Numeral

/-!
# Escapes in string literals

`unescape` decodes the text between the quotes of a string literal. A backslash starts an escape:
a letter for a control character, a quote or backslash for itself, up to three octal digits, or
`x` and `u` with two and four hexadecimal digits. `Escape.read` decodes one escape from what
follows its backslash.
-/

namespace Botscript

namespace Escape

/-- The character an escape of one letter stands for. -/
def simple? : Char → Option Char
  | 'n' => some '\n'
  | 't' => some '\t'
  | 'b' => some '\x08'
  | 'r' => some '\r'
  | 'f' => some '\x0c'
  | '"' => some '"'
  | '\'' => some '\''
  | '\\' => some '\\'
  | _ => none

/-- The character with a given code, unless the code is a surrogate or too large. -/
def scalar? (code : Nat) : Option Char :=
  if code.isValidChar then some (Char.ofNat code) else none

/-- The number of hexadecimal digits after a selector. -/
def width? : Char → Option Nat
  | 'x' => some 2
  | 'u' => some 4
  | _ => none

/-- The character with a code of exactly `width` bytes of hexadecimal digits. -/
def coded? (width : Nat) (digits : List Char) : Option Char :=
  if byteLength digits = width then
    (Numeral.read 16 (UInt32.size - 1) digits).toOption.bind scalar?
  else none

/-- The octal digits at the front of a text, at most `count` of them. -/
def octalRun (count : Nat) (text : List Char) : List Char :=
  (text.take count).takeWhile fun c => (Numeral.digitValue? 8 c).isSome

/-- The value of a run of octal digits. -/
def octalValue (digits : List Char) : Nat :=
  digits.foldl (fun value c => value * 8 + (c.toNat - '0'.toNat)) 0

/-- Decodes the escape whose backslash stands before `text`: the character and the length of the
escape without the backslash, or else the characters that make no escape. Octal escapes end at
`\377`, so a third digit is read only if the first is at most three. -/
def read : List Char → Except (List Char) (Char × Nat)
  | [] => .error []
  | selector :: rest =>
    match simple? selector, width? selector with
    | some c, _ => .ok (c, 1)
    | none, some width =>
      match coded? width (rest.take width) with
      | some c => .ok (c, width + 1)
      | none => .error (selector :: rest.take width)
    | none, none =>
      if (Numeral.digitValue? 8 selector).isSome then
        let digits := selector :: octalRun (if selector ≤ '3' then 2 else 1) rest
        .ok (Char.ofNat (octalValue digits), digits.length)
      else .error [selector]

end Escape

/-- Decodes a text after its first `skip` characters. -/
def unescapeAfter : Nat → List Char → Except (List Char) (List Char)
  | _, [] => .ok []
  | skip + 1, _ :: rest => unescapeAfter skip rest
  | 0, c :: rest =>
    if c = '\\' then
      match Escape.read rest with
      | .ok (decoded, length) => (decoded :: ·) <$> unescapeAfter length rest
      | .error bad => .error ('\\' :: bad)
    else (c :: ·) <$> unescapeAfter 0 rest

/-- Decodes the text between the quotes of a string literal, or answers the first sequence that
is no escape. -/
def unescape (body : List Char) : Except (List Char) (List Char) := unescapeAfter 0 body

theorem unescapeAfter_eq_drop (skip : Nat) (text : List Char) :
    unescapeAfter skip text = unescape (text.drop skip) := by
  induction text generalizing skip with
  | nil => simp [unescape, unescapeAfter]
  | cons c rest ih =>
    cases skip with
    | zero => rfl
    | succ skip => rw [unescapeAfter, ih, List.drop_succ_cons]

@[simp] theorem unescape_nil : unescape [] = .ok [] := rfl

/-- A character other than a backslash stands for itself. -/
theorem unescape_cons_of_ne {c : Char} (h : c ≠ '\\') (rest : List Char) :
    unescape (c :: rest) = (c :: ·) <$> unescape rest := by
  rw [unescape, unescapeAfter, if_neg h, unescape]

/-- A backslash stands for the character of its escape. -/
theorem unescape_backslash (rest : List Char) :
    unescape ('\\' :: rest) = match Escape.read rest with
      | .ok (decoded, length) => (decoded :: ·) <$> unescape (rest.drop length)
      | .error bad => .error ('\\' :: bad) := by
  rw [unescape, unescapeAfter, if_pos rfl]
  split <;> simp [*, unescapeAfter_eq_drop]

end Botscript
