import Quadlet.Decimal.Layout

/-!
# Tokens

A token is a word, a sign, a literal or the end of the file, together with the text it was cut from
and the place where it stands.

Embeds duckling's `Token` and `TokenKind`; `SPEC_FULL.md` §6 and §E.
-/

namespace Quadlet

/-- A place in a source text; lines and columns count from 1, columns count characters. -/
structure Position where
  line : Nat
  column : Nat
  deriving DecidableEq, Repr

namespace Position

/-- Where a source text starts. -/
def start : Position := ⟨1, 1⟩

/-- The place behind one character. -/
def next (p : Position) (c : Char) : Position :=
  if c = '\n' then ⟨p.line + 1, 1⟩ else ⟨p.line, p.column + 1⟩

/-- The place behind a run of characters. -/
def after (p : Position) (cs : List Char) : Position := cs.foldl next p

/-- Two runs can be passed one after the other. -/
theorem after_append (p : Position) (cs ds : List Char) :
    p.after (cs ++ ds) = (p.after cs).after ds := List.foldl_append

end Position

/-- The reserved words. -/
inductive Keyword where
  | program
  | finish
  | main
  | var
  | loop
  | whilst
  | cond
  | otherwise
  | print
  | int
  | float
  | void
  | func
  deriving DecidableEq, Repr

namespace Keyword

/-- Every reserved word. -/
def all : List Keyword := [
  .program, .finish, .main, .var, .loop, .whilst, .cond, .otherwise, .print, .int, .float,
  .void, .func]

/-- The letters of a reserved word. -/
def word : Keyword → String
  | .program => "program"
  | .finish => "end"
  | .main => "main"
  | .var => "var"
  | .loop => "do"
  | .whilst => "while"
  | .cond => "if"
  | .otherwise => "else"
  | .print => "print"
  | .int => "int"
  | .float => "float"
  | .void => "void"
  | .func => "func"

/-- The reserved word with these letters. -/
def ofWord? (s : String) : Option Keyword := all.find? fun k => k.word = s

/-- A reserved word is found under its own letters. -/
theorem ofWord?_word (k : Keyword) : ofWord? k.word = some k := by
  cases k <;> decide

end Keyword

/-- The operators and delimiters. -/
inductive Sign where
  | plus
  | minus
  | star
  | slash
  | eq
  | ne
  | lt
  | gt
  | le
  | ge
  | assign
  | leftParen
  | rightParen
  | leftBrace
  | rightBrace
  | leftBracket
  | rightBracket
  | comma
  | colon
  | semicolon
  deriving DecidableEq, Repr

namespace Sign

/-- Every sign. -/
def all : List Sign := [
  .plus, .minus, .star, .slash, .eq, .ne, .lt, .gt, .le, .ge, .assign, .leftParen, .rightParen,
  .leftBrace, .rightBrace, .leftBracket, .rightBracket, .comma, .colon, .semicolon]

/-- The characters of a sign. -/
def text : Sign → String
  | .plus => "+"
  | .minus => "-"
  | .star => "*"
  | .slash => "/"
  | .eq => "=="
  | .ne => "!="
  | .lt => "<"
  | .gt => ">"
  | .le => "<="
  | .ge => ">="
  | .assign => "="
  | .leftParen => "("
  | .rightParen => ")"
  | .leftBrace => "\x7b"
  | .rightBrace => "\x7d"
  | .leftBracket => "["
  | .rightBracket => "]"
  | .comma => ","
  | .colon => ":"
  | .semicolon => ";"

/-- The sign with these characters. -/
def ofText? (s : String) : Option Sign := all.find? fun x => x.text = s

end Sign

/-- What a token is. -/
inductive Token.Kind where
  | integer (n : Int64)
  | float (x : Float)
  | string (s : String)
  | identifier (name : String)
  | keyword (k : Keyword)
  | sign (s : Sign)
  | endOfFile
  deriving DecidableEq

namespace Token.Kind

/-- The text of a token of this kind; a string stands between quotes. -/
def text : Token.Kind → String
  | .integer n => toString n.toInt
  | .float x => floatText x
  | .string s => "\"" ++ s ++ "\""
  | .identifier name => name
  | .keyword k => k.word
  | .sign s => s.text
  | .endOfFile => "end of file"

/-- How messages name a token of this kind. -/
def described : Token.Kind → String
  | .integer _ => "integer"
  | .float _ => "float"
  | .string _ => "string"
  | .identifier name => if name.isEmpty then "identifier" else "identifier `" ++ name ++ "`"
  | .endOfFile => "end of file"
  | kind => "`" ++ kind.text ++ "`"

end Token.Kind

/-- A token, the text it was cut from and its place. -/
structure Token where
  kind : Token.Kind
  lexeme : String
  position : Position
  deriving DecidableEq

end Quadlet
