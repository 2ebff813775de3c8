import ChunkDirectory.Message.Term
import ChunkDirectory.Text.Hidden

/-!
# Messages in error texts

An error that quotes a message shows its term: alternatives and types by their names, fields by name
in braces, single values in parentheses, lists in brackets and maps in braces. Texts are quoted, with
control characters and characters that would not show written as escapes.
-/

namespace ChunkDirectory

namespace Term

/-- A character inside quotes. -/
def quotedChar (c : Char) : List Char :=
  if c = '"' then ['\\', '"']
  else if c = '\\' then ['\\', '\\']
  else if c = '\t' then ['\\', 't']
  else if c = '\r' then ['\\', 'r']
  else if c = '\n' then ['\\', 'n']
  else if c.toNat = 0 then ['\\', '0']
  else if Text.isHidden c then ['\\', 'u', '\x7b'] ++ Nat.toDigits 16 c.toNat ++ ['\x7d']
  else [c]

def quote (s : String) : String := "\"" ++ String.ofList (s.toList.flatMap quotedChar) ++ "\""

mutual

/-- The text of a term. -/
def text : Term → String
  | .number n => toString n
  | .wide n => toString n
  | .truth b => if b then "true" else "false"
  | .quoted s => quote s
  | .none => "None"
  | .some value => "Some(" ++ value.text ++ ")"
  | .name s => s
  | .choice label value => label ++ "(" ++ value.text ++ ")"
  | .variant label fields => label ++ " \x7b " ++ ", ".intercalate (fieldTexts fields) ++ " \x7d"
  | .wrapped type value => type ++ "(" ++ value.text ++ ")"
  | .record type fields => type ++ " \x7b " ++ ", ".intercalate (fieldTexts fields) ++ " \x7d"
  | .pair first second => "(" ++ first.text ++ ", " ++ second.text ++ ")"
  | .list items => "[" ++ ", ".intercalate (itemTexts items) ++ "]"
  | .map entries => "\x7b" ++ ", ".intercalate (entryTexts entries) ++ "\x7d"
  | .table entries => "[" ++ ", ".intercalate (rowTexts entries) ++ "]"

def itemTexts : List Term → List String
  | [] => []
  | t :: rest => t.text :: itemTexts rest

def fieldTexts : List (String × Term) → List String
  | [] => []
  | (label, t) :: rest => (label ++ ": " ++ t.text) :: fieldTexts rest

def entryTexts : List (Term × Term) → List String
  | [] => []
  | (key, value) :: rest => (key.text ++ ": " ++ value.text) :: entryTexts rest

def rowTexts : List (Nat × Term) → List String
  | [] => []
  | (key, value) :: rest => ("(" ++ toString key ++ ", " ++ value.text ++ ")") :: rowTexts rest

end

end Term

/-- A message as it is quoted in error texts. -/
def Message.text (m : Message) : String := (Term.message Term.tree m).text

end ChunkDirectory
