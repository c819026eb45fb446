/-!
# Pages

A chunk is printed as a row of pieces: tokens, and the gaps and line breaks between them.
A page takes the pieces in order.  Spread out, gaps and line breaks are written.  Tight,
they are not, and a space stands only where two tokens would otherwise read as others:
between two words, after a numeral before a word or a point, and between signs that would
form a longer sign or start a comment or a long bracket.
-/

namespace LuaBundle
namespace Lua

/-- The layout of printed text. -/
inductive Style where
  /-- One statement per line, four spaces of indentation, one field of a table per line. -/
  | pretty
  | compact
deriving DecidableEq, Repr

inductive Piece where
  | token (text : String)
  | numeral (text : String)
  | gap
  /-- A new line at a depth of indentation. -/
  | newline (depth : Nat)
deriving DecidableEq, Repr

/-- What has been written so far, the last character first, and whether the last token is a
numeral. -/
structure Page where
  style : Style
  written : List Char := []
  afterNumeral : Bool := false
deriving Repr

def Page.text (page : Page) : List Char :=
  page.written.reverse

/-!
## Separation
-/

/-- A character of a word as far as separation goes: an ASCII letter, digit or underscore. -/
def isWordChar (c : Char) : Bool :=
  c.isAlphanum || c == '_'

/-- Whether two characters that stand side by side would change what they belong to. -/
def mergeable (last next : Char) : Bool :=
  (isWordChar last && isWordChar next)
    || (last == '-' && next == '-')
    || (last == '.' && next == '.')
    || (last == '[' && (next == '[' || next == '='))
    || ((last == '<' || last == '>' || last == '~' || last == '=') && next == '=')

def Page.needsSpace (page : Page) (next : Char) : Bool :=
  match page.written with
  | [] => false
  | last :: _ => (page.afterNumeral && (isWordChar next || next == '.')) || mergeable last next

/-!
## Writing

Only tokens are compared with what stands before them.
-/

/-- Writes a token.  A token without characters leaves the page as it is. -/
def Page.token (page : Page) (text : String) : Page :=
  match text.toList with
  | [] => page
  | c :: rest =>
      let before := if page.needsSpace c then ' ' :: page.written else page.written
      { page with written := (c :: rest).reverse ++ before, afterNumeral := false }

def Page.write (page : Page) : Piece → Page
  | .token text => page.token text
  | .numeral text => { page.token text with afterNumeral := true }
  | .gap =>
      match page.style with
      | .pretty => { page with written := ' ' :: page.written, afterNumeral := false }
      | .compact => page
  | .newline depth =>
      match page.style, page.written with
      | .pretty, _ :: _ =>
          { page with
            written := List.replicate (4 * depth) ' ' ++ '\n' :: page.written
            afterNumeral := false }
      | _, _ => page

def Page.writeAll (page : Page) (pieces : List Piece) : Page :=
  pieces.foldl Page.write page

def Page.endLine (page : Page) : Page :=
  match page.written with
  | '\n' :: _ => page
  | written => { page with written := '\n' :: written }

end Lua
end LuaBundle
