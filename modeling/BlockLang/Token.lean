/-! # Tokens

A token is a word (a name or one of three keywords), a numeric literal kept as
its lexeme, one of thirteen marks, or the end of the text. Names and literals
keep their spelling because messages and listings quote it unchanged. -/

namespace BlockLang

inductive Keyword where
  | int
  | double
  | main
deriving DecidableEq, Repr

namespace Keyword

def lexeme : Keyword → String
  | .int => "int"
  | .double => "double"
  | .main => "main"

def ofLexeme? (word : String) : Option Keyword :=
  if word = "int" then some .int
  else if word = "double" then some .double
  else if word = "main" then some .main
  else none

@[simp] theorem ofLexeme?_lexeme (k : Keyword) : ofLexeme? k.lexeme = some k := by
  cases k <;> decide

end Keyword

/-- Operators and punctuation, each one character long. -/
inductive Mark where
  | openParen
  | closeParen
  | times
  | slash
  | plus
  | minus
  | semicolon
  | comma
  | openBracket
  | closeBracket
  | assign
  | openBrace
  | closeBrace
deriving DecidableEq, Repr

namespace Mark

def char : Mark → Char
  | .openParen => '('
  | .closeParen => ')'
  | .times => '*'
  | .slash => '/'
  | .plus => '+'
  | .minus => '-'
  | .semicolon => ';'
  | .comma => ','
  | .openBracket => '['
  | .closeBracket => ']'
  | .assign => '='
  | .openBrace => '\x7b'
  | .closeBrace => '\x7d'

def all : List Mark :=
  [.openParen, .closeParen, .times, .slash, .plus, .minus, .semicolon, .comma,
    .openBracket, .closeBracket, .assign, .openBrace, .closeBrace]

def ofChar? (c : Char) : Option Mark :=
  all.find? (fun m => m.char = c)

@[simp] theorem ofChar?_char (m : Mark) : ofChar? m.char = some m := by
  cases m <;> decide

end Mark

/-- What the scanner yields, and the end of the text. -/
inductive Token where
  | name (text : String)
  | keyword (k : Keyword)
  | integer (lexeme : String)
  | real (lexeme : String)
  | mark (m : Mark)
  | endOfText
deriving DecidableEq, Repr

namespace Token

/-- The characters of the text that make up a token. -/
def lexeme : Token → String
  | .name text => text
  | .keyword k => k.lexeme
  | .integer lexeme => lexeme
  | .real lexeme => lexeme
  | .mark m => String.singleton m.char
  | .endOfText => ""

/-- A token as messages quote it. -/
def quoted : Token → String
  | .endOfText => "fin de fichero"
  | t => "'" ++ t.lexeme ++ "'"

/-- The token of a word: a keyword if it is spelled like one, else a name. -/
def ofWord (word : String) : Token :=
  match Keyword.ofLexeme? word with
  | some k => .keyword k
  | none => .name word

end Token

end BlockLang
