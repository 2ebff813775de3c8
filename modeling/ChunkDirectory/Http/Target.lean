/-!
# Request targets

A request names what it asks for in one of four ways: by a path on the server, by a whole address
with scheme and authority, by an authority alone, or by an asterisk for the server itself. Of a path
or an address only the path counts; the query and the fragment behind it are checked and dropped.
-/

namespace ChunkDirectory.Http

/-- What a request asks for. -/
inductive Target where
  /-- A page, by its path. -/
  | page (path : List Char)
  /-- A connection to a host. -/
  | host (authority : List Char)
  /-- The server as a whole. -/
  | server
deriving DecidableEq

/-! ## Characters -/

/-- Whether a character may stand in a target at all. -/
def isTargetChar (c : Char) : Bool := ' ' < c && c ≠ '\x7f'

def isPathChar (c : Char) : Bool := isTargetChar c && !"#<>?`".toList.contains c

def isQueryChar (c : Char) : Bool := isTargetChar c && !"\"#<>".toList.contains c

def isSchemeChar (c : Char) : Bool := c.isAlphanum || "+-.~".toList.contains c

/-- Whether a character may stand anywhere in an authority. -/
def isHostChar (c : Char) : Bool := c.isAlphanum || "!$&'()*+,-.;=_~".toList.contains c

/-! ## Authorities -/

/-- What is remembered of an authority while it is read. -/
structure AuthorityScan where
  /-- Colons since the user information or the brackets ended. -/
  colons : Nat
  opened : Bool
  closed : Bool
  /-- Whether there was a percent sign since the user information or the brackets ended. -/
  percent : Bool

/-- Reads a character of an authority. -/
def AuthorityScan.next (s : AuthorityScan) (c : Char) : Option AuthorityScan :=
  match c with
  | ':' => if s.colons < 8 then some { s with colons := s.colons + 1 } else none
  | '[' => if s.opened || s.percent then none else some { s with opened := true }
  | ']' =>
    if s.closed || !s.opened then none
    else some { s with closed := true, colons := 0, percent := false }
  | '@' => some { s with colons := 0, percent := false }
  | '%' => some { s with percent := true }
  | c => if isHostChar c then some s else none

/-- Whether a text is an authority: a host, which may be an address in brackets, with user
information before it and a port behind it. Only the port has a colon of its own, and percent signs
stand in user information and in brackets only. -/
def isAuthority (text : List Char) : Bool :=
  match text.foldlM AuthorityScan.next ⟨0, false, false, false⟩ with
  | none => false
  | some s => s.opened == s.closed && s.colons ≤ 1 && !s.percent && text.getLast? ≠ some '@'

/-! ## Reading -/

/-- The path in front of a query and a fragment. -/
def readPath (text : List Char) : Option (List Char) :=
  let inPath (c : Char) : Bool := c ≠ '?' && c ≠ '#'
  let path := text.takeWhile inPath
  let query := ((text.dropWhile inPath).takeWhile (· ≠ '#')).drop 1
  if path.all isPathChar && query.all isQueryChar then some path else none

/-- The longest scheme allowed. -/
def maxSchemeLength : Nat := 64

/-- Divides an address after its scheme. -/
def splitScheme (text : List Char) : Option (List Char × List Char) :=
  match text.dropWhile isSchemeChar with
  | ':' :: '/' :: '/' :: rest => some (text.takeWhile isSchemeChar, rest)
  | _ => none

/-- Divides what follows a scheme after the authority. -/
def splitAuthority (text : List Char) : List Char × List Char :=
  text.span fun c => c ≠ '/' && c ≠ '?' && c ≠ '#'

/-- Reads an address, or an authority if there is no scheme in front. -/
def readAddress (text : List Char) : Option Target := do
  match splitScheme text with
  | some (scheme, rest) =>
    let (authority, path) := splitAuthority rest
    guard (scheme.length ≤ maxSchemeLength && !authority.isEmpty && isAuthority authority)
    return .page (← readPath path)
  | none =>
    guard (!text.isEmpty && isAuthority text)
    return .host text

/-- Reads a target. -/
def Target.read (text : List Char) : Option Target :=
  match text with
  | ['*'] => some .server
  | '/' :: _ => (readPath text).map .page
  | _ => readAddress text

end ChunkDirectory.Http
