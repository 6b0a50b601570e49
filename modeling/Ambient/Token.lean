import Ambient.Text.Quoted

/-! Tokens of C# source as far as declarations need them: names, literals, the keywords that
introduce or modify a declaration, punctuation, and any other operator character.
`label` is the name a token has in an error message. -/
namespace Ambient

inductive Keyword where
  | usingKw | namespaceKw | classKw | structKw | recordKw | interfaceKw | enumKw | delegateKw
  | eventKw | operatorKw | implicitKw | explicitKw | thisKw | whereKw
  | publicKw | privateKw | protectedKw | internalKw | staticKw | constKw | readonlyKw
  | abstractKw | sealedKw | partialKw | virtualKw | overrideKw | newKw | externKw | unsafeKw
  | volatileKw | requiredKw
  deriving DecidableEq, Repr

namespace Keyword

def all : List Keyword :=
  [usingKw, namespaceKw, classKw, structKw, recordKw, interfaceKw, enumKw, delegateKw,
   eventKw, operatorKw, implicitKw, explicitKw, thisKw, whereKw,
   publicKw, privateKw, protectedKw, internalKw, staticKw, constKw, readonlyKw,
   abstractKw, sealedKw, partialKw, virtualKw, overrideKw, newKw, externKw, unsafeKw,
   volatileKw, requiredKw]

def spelling : Keyword → String
  | usingKw => "using" | namespaceKw => "namespace" | classKw => "class"
  | structKw => "struct" | recordKw => "record" | interfaceKw => "interface"
  | enumKw => "enum" | delegateKw => "delegate" | eventKw => "event"
  | operatorKw => "operator" | implicitKw => "implicit" | explicitKw => "explicit"
  | thisKw => "this" | whereKw => "where" | publicKw => "public"
  | privateKw => "private" | protectedKw => "protected" | internalKw => "internal"
  | staticKw => "static" | constKw => "const" | readonlyKw => "readonly"
  | abstractKw => "abstract" | sealedKw => "sealed" | partialKw => "partial"
  | virtualKw => "virtual" | overrideKw => "override" | newKw => "new"
  | externKw => "extern" | unsafeKw => "unsafe" | volatileKw => "volatile"
  | requiredKw => "required"

def ofSpelling? (s : String) : Option Keyword := all.find? (·.spelling == s)

def label (k : Keyword) : String :=
  match k.spelling.toList with
  | [] => ""
  | c :: r => String.ofList (c.toUpper :: r)

end Keyword

inductive Mark where
  | openParen | closeParen | openBrace | closeBrace | openBracket | closeBracket
  | openAngle | closeAngle | comma | semicolon | colon | doubleColon | dot | question
  | equals | arrow | tilde | star | minus
  deriving DecidableEq, Repr

def Mark.label : Mark → String
  | openParen => "LParen" | closeParen => "RParen"
  | openBrace => "LBrace" | closeBrace => "RBrace"
  | openBracket => "LBracket" | closeBracket => "RBracket"
  | openAngle => "LAngle" | closeAngle => "RAngle"
  | comma => "Comma" | semicolon => "Semicolon"
  | colon => "Colon" | doubleColon => "ColonColon"
  | dot => "Dot" | question => "Question"
  | equals => "Eq" | arrow => "Arrow"
  | tilde => "Tilde" | star => "Star" | minus => "Minus"

inductive Token where
  | ident (name : String)
  | text (value : String)
  | character
  | number (spelled : String)
  | keyword (k : Keyword)
  | mark (m : Mark)
  | op (c : Char)
  deriving DecidableEq, Repr

namespace Token

def label : Token → String
  | ident name => "Ident(" ++ Text.quoted name ++ ")"
  | text value => "StringLiteral(" ++ Text.quoted value ++ ")"
  | character => "CharLiteral"
  | number spelled => "NumberLiteral(" ++ Text.quoted spelled ++ ")"
  | keyword k => k.label
  | mark m => m.label
  | op c => "Op('" ++ String.ofList (Text.quotedChar '\'' c) ++ "')"

/-- The label of what stands at a position, which may be the end of the text. -/
def labelAt : Option Token → String
  | some t => t.label
  | none => "Eof"

end Token

end Ambient
