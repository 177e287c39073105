/-!
# Names in printed terms

A name is written as it is if it reads back as one token: a small letter followed by letters,
digits and underscores (ASCII throughout), a sequence of symbol characters, or one of four solo
names. Every other name stands in single quotes, with a backslash before each quote and backslash.
-/

namespace Horn.Text

/-- The characters of symbolic names. -/
def symbolChars : List Char := "+-*/\\^<>=~:.?@#&$".toList

/-- A small letter, followed by letters, digits and underscores. -/
def isWord : List Char → Bool
  | [] => false
  | c :: rest => c.isLower && rest.all fun d => d.isAlphanum || d == '_'

/-- One or more symbol characters. -/
def isSymbolic (name : List Char) : Bool := !name.isEmpty && name.all symbolChars.contains

/-- The names that are tokens by themselves. -/
def soloNames : List String := ["!", "[]", ";", "\x7b\x7d"]

/-- The name needs no quotes. -/
def isBare (name : String) : Bool :=
  isWord name.toList || isSymbolic name.toList || soloNames.contains name

/-- A character between single quotes. -/
def quoteChar (c : Char) : List Char := if c = '\\' || c = '\'' then ['\\', c] else [c]

/-- A name as it stands in a printed term. -/
def quoted (name : String) : String :=
  if isBare name then name else "'" ++ String.ofList (name.toList.flatMap quoteChar) ++ "'"

end Horn.Text
