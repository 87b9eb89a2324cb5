/-
This file models the decoding of string tokens and the scan of a source text for its brackets, and it states the rules of
the expression grammar and of the document grammar.
-/

import Liasse.Codes.Peg
import Liasse.Syntax.Ast

namespace Liasse.Syntax

section Characters

abbrev lineFeed : Char := Char.ofNat 10

abbrev carriageReturn : Char := Char.ofNat 13

abbrev doubleQuote : Char := Char.ofNat 34

abbrev singleQuote : Char := Char.ofNat 39

abbrev backslash : Char := Char.ofNat 92

abbrev tripleQuote : List Char := [singleQuote, singleQuote, singleQuote]

/-- The digit of a hexadecimal character. -/
def hexDigit (char : Char) : Option Nat :=
  let code := char.toNat
  if 48 ≤ code ∧ code ≤ 57 then some (code - 48)
  else if 65 ≤ code ∧ code ≤ 70 then some (code - 55)
  else if 97 ≤ code ∧ code ≤ 102 then some (code - 87)
  else none

/-- The character of a code point. A code point that is none becomes the replacement character. -/
def charOf (code : Nat) : Char :=
  if code.isValidChar then Char.ofNat code else Char.ofNat 0xFFFD

end Characters

section Quoted

/-- The number of four hexadecimal digits. A missing or foreign digit counts as zero. -/
def hex4 (chars : List Char) : Nat :=
  (List.range 4).foldl (fun value index => value * 16 + ((chars[index]?.bind hexDigit).getD 0)) 0

/-- The character of a code unit and the text behind it. A high surrogate takes a low one with it. -/
def decodeUnicode (chars : List Char) : Char × List Char :=
  let high := hex4 chars
  let rest := chars.drop 4
  if 0xD800 ≤ high ∧ high ≤ 0xDBFF then
    match rest with
    | slash :: mark :: after =>
      let low := hex4 after
      if slash = backslash ∧ mark = 'u' ∧ 0xDC00 ≤ low ∧ low ≤ 0xDFFF then
        (charOf (0x10000 + (high - 0xD800) * 1024 + (low - 0xDC00)), after.drop 4)
      else (Char.ofNat 0xFFFD, rest)
    | _ => (Char.ofNat 0xFFFD, rest)
  else (charOf high, rest)

theorem length_decodeUnicode_le (chars : List Char) : (decodeUnicode chars).2.length ≤ chars.length := by
  have short : (chars.drop 4).length ≤ chars.length := by simp
  rw [decodeUnicode]
  dsimp only
  split
  · split
    · rename_i after shape
      rw [shape] at short
      simp only [List.length_cons] at short
      split
      · simp only [List.length_drop]
        omega
      · rw [shape]
        simpa using short
    · exact short
  · exact short

/-- The character of a short escape. -/
def shortEscape (char : Char) : Option Char :=
  if char = 'n' then some lineFeed
  else if char = 't' then some (Char.ofNat 9)
  else if char = 'r' then some carriageReturn
  else if char = 'b' then some (Char.ofNat 8)
  else if char = 'f' then some (Char.ofNat 12)
  else if char = '/' ∨ char = doubleQuote ∨ char = singleQuote ∨ char = backslash then some char
  else none

/-- The text of the characters between two quotes. An unknown escape stays as it is. -/
def decodeEscapes : List Char → List Char
  | [] => []
  | char :: rest =>
    if char ≠ backslash then char :: decodeEscapes rest
    else
      match rest with
      | [] => [backslash]
      | mark :: after =>
        if mark = 'u' then (decodeUnicode after).1 :: decodeEscapes (decodeUnicode after).2
        else
          match shortEscape mark with
          | some decoded => decoded :: decodeEscapes after
          | none => backslash :: mark :: decodeEscapes after
termination_by chars => chars.length
decreasing_by
  all_goals
    have short := length_decodeUnicode_le ‹List Char›
    simp only [List.length_cons]
    omega

def isQuote (char : Char) : Bool :=
  char = doubleQuote || char = singleQuote

/-- A token without its two quotes. A token that lacks one stays whole. -/
def stripQuotes (token : List Char) : List Char :=
  match token with
  | [] => token
  | opening :: rest =>
    match isQuote opening, rest.getLast? with
    | true, some closing => if isQuote closing then rest.dropLast else token
    | _, _ => token

def decodeQuoted (token : List Char) : List Char :=
  decodeEscapes (stripQuotes token)

end Quoted

section Multiline

/-- A line without its leading blanks, up to the gutter. -/
def deindent (gutter : Nat) (line : List Char) : List Char :=
  line.drop ((line.take gutter).takeWhile fun char => char = ' ' || char = Char.ofNat 9).length

def stripReturn (line : List Char) : List Char :=
  if line.getLast? = some carriageReturn then line.dropLast else line

/-- A body without the line break behind the opening marks. -/
def stripBreak (body : List Char) : List Char :=
  match body with
  | first :: second :: rest =>
    if first = carriageReturn ∧ second = lineFeed then rest
    else if first = lineFeed then second :: rest
    else body
  | [first] => if first = lineFeed then [] else body
  | [] => body

/-- The text of a multiline block, whose opening marks stand at the gutter. -/
def decodeMultiline (body : List Char) (gutter : Nat) : List Char :=
  List.intercalate [lineFeed]
    (((stripBreak body).splitOn lineFeed).map fun line => deindent gutter (stripReturn line))

end Multiline

/-- The bound on the nesting of brackets and on the depth of a tree. -/
def maxNestingDepth : Nat := 32

/-- The surface of a text. Only a document has comments behind a number sign, and only a type has brackets
that are comparisons elsewhere. -/
inductive Lexis
  | document
  | expression
  | type
deriving DecidableEq

inductive Bracket
  | opening
  | closing
deriving DecidableEq

section Skips

/-- The text behind the first place of a mark. -/
def behind (mark : List Char) : List Char → Option (List Char)
  | [] => if mark = [] then some [] else none
  | char :: rest =>
    if mark.isPrefixOf (char :: rest) then some ((char :: rest).drop mark.length) else behind mark rest

def skipLine (text : List Char) : List Char :=
  (behind [lineFeed] text).getD []

/-- A block comment without an end takes the rest of the text. -/
def skipBlock (text : List Char) : List Char :=
  (behind ['*', '/'] (text.drop 2)).getD []

def skipMultiline (text : List Char) : Option (List Char) :=
  behind tripleQuote (text.drop 3)

/-- The text behind the closing quote, from behind the opening one. -/
def skipString (quote : Char) : List Char → Option (List Char)
  | [] => none
  | [char] => if char = quote then some [] else none
  | char :: next :: rest =>
    if char = backslash then skipString quote rest
    else if char = quote then some (next :: rest)
    else skipString quote (next :: rest)

end Skips

/-- The bracket that a character is. -/
def Lexis.bracket (lexis : Lexis) (char : Char) : Option Bracket :=
  if char = Char.ofNat 123 ∨ char = '[' ∨ char = '(' then some .opening
  else if char = Char.ofNat 125 ∨ char = ']' ∨ char = ')' then some .closing
  else if lexis = .type ∧ char = '<' then some .opening
  else if lexis = .type ∧ char = '>' then some .closing
  else none

/-- The brackets of a text. A string without an end stops the scan. Each step takes a character or more. -/
def scan (lexis : Lexis) : Nat → List Char → List Bracket
  | 0, _ => []
  | _ + 1, [] => []
  | steps + 1, char :: rest =>
    let text := char :: rest
    if ['/', '/'].isPrefixOf text ∨ (lexis = .document ∧ char = '#') then scan lexis steps (skipLine text)
    else if ['/', '*'].isPrefixOf text then scan lexis steps (skipBlock text)
    else if tripleQuote.isPrefixOf text then
      match skipMultiline text with
      | some after => scan lexis steps after
      | none => []
    else if char = doubleQuote ∨ char = singleQuote then
      match skipString char rest with
      | some after => scan lexis steps after
      | none => []
    else (lexis.bracket char).toList ++ scan lexis steps rest

/-- Some opening bracket stands deeper than a limit. A closing bracket without an opening one counts for
nothing. -/
def depthBreach (limit : Nat) : Nat → List Bracket → Bool
  | _, [] => false
  | depth, .opening :: rest => limit < depth + 1 || depthBreach limit (depth + 1) rest
  | depth, .closing :: rest => depthBreach limit (depth - 1) rest

/-- The brackets of a text nest within the bound. -/
def nestsWithin (lexis : Lexis) (text : List Char) : Bool :=
  !depthBreach maxNestingDepth 0 (scan lexis text.length text)

end Liasse.Syntax

namespace Liasse.Syntax

open Codes (Peg RuleKind Grammar)

section Forms

variable {R : Type}

/-- The parts of a sequence. -/
def parts : List (Peg R) → Peg R
  | [] => .text []
  | [part] => part
  | part :: rest => .seq part (parts rest)

/-- The ordered choice between alternatives. -/
def choice : List (Peg R) → Peg R
  | [] => .lacks (.text [])
  | [option] => option
  | option :: rest => .alt option (choice rest)

/-- One or more. -/
def many (body : Peg R) : Peg R :=
  .seq body (.star body)

/-- Items with a separator between them. -/
def separated (item separator : Peg R) : Peg R :=
  .seq item (.star (.seq separator item))

def newline : Peg R :=
  choice [.text [lineFeed], .text [carriageReturn, lineFeed], .text [carriageReturn]]

def asciiDigit : Peg R :=
  .char Char.isDigit

def asciiAlpha : Peg R :=
  .char Char.isAlpha

def asciiAlphanumeric : Peg R :=
  .char Char.isAlphanum

def hexDigits : Peg R :=
  parts (List.replicate 4 (.char fun char => (hexDigit char).isSome))

def blank : Peg R :=
  choice [.text [' '], .text [Char.ofNat 9], .text [carriageReturn], .text [lineFeed]]

/-- The rest of a line behind a mark. -/
def lineOf (mark : Peg R) : Peg R :=
  .seq mark (.star (.seq (.lacks newline) .any))

def blockOf (opening closing : List Char) : Peg R :=
  parts [.text opening, .star (.seq (.lacks (.text closing)) .any), .text closing]

/-- The members between two brackets, with commas that may be left out. -/
def membersOf (opening : Char) (member : Peg R) (closing : Char) : Peg R :=
  parts [.text [opening],
    .opt (parts [member, .star (.seq (.opt (.text [','])) member), .opt (.text [','])]), .text [closing]]

def quoted (quote : Char) (char : Peg R) : Peg R :=
  parts [.text [quote], .star char, .text [quote]]

def quotedChar (quote : Char) (escape : Peg R) : Peg R :=
  .alt (.seq (.lacks (.alt (.text [quote]) (.text [backslash]))) .any) (.seq (.text [backslash]) escape)

def escapeOf (unicode : Peg R) : Peg R :=
  choice [.text [doubleQuote], .text [singleQuote], .text [backslash], .text ['/'], .text ['b'], .text ['f'],
    .text ['n'], .text ['r'], .text ['t'], unicode]

end Forms

abbrev openBrace : Char := Char.ofNat 123

abbrev closeBrace : Char := Char.ofNat 125

section Expressions

inductive ExprRule
  | whitespace
  | comment
  | lineComment
  | blockComment
  | program
  | statement
  | returnStmt
  | returnKw
  | tailStmt
  | assignTail
  | clearTail
  | expression
  | ternary
  | ternaryTail
  | combination
  | combinatorOp
  | unionOp
  | intersectOp
  | fallback
  | fallbackOp
  | logicOr
  | orOp
  | logicAnd
  | andOp
  | comparison
  | relOp
  | le
  | ge
  | lt
  | gt
  | eq
  | ne
  | inOp
  | additive
  | addOp
  | plus
  | minus
  | multiplicative
  | mulOp
  | star
  | slash
  | percent
  | unary
  | unaryOp
  | notOp
  | negOp
  | postfixExpr
  | postfixOp
  | fieldAccess
  | sameName
  | memberRef
  | selector
  | selectorBody
  | bindSelector
  | bindFilter
  | keyList
  | callArgs
  | arg
  | namedArg
  | block
  | blockMember
  | directive
  | clearMember
  | namedMember
  | assignMember
  | shorthandMember
  | primary
  | noneKw
  | boolean
  | decimal
  | integer
  | string
  | dquote
  | squote
  | dqChar
  | sqChar
  | escape
  | unicode
  | multiline
  | multilineBody
  | list
  | objectLiteral
  | rootRef
  | currentRef
  | implicitField
  | parentRef
  | importRef
  | paramRef
  | structRef
  | nameRef
  | grouped
  | structName
  | ident
  | identCont
deriving DecidableEq

namespace ExprRule

def kind : ExprRule → RuleKind
  | whitespace | comment | lineComment | blockComment | identCont => .silent
  | returnKw | inOp | noneKw | boolean | decimal | integer | parentRef | ident => .atomic
  | memberRef | string | multiline | importRef | paramRef | structRef | nameRef | structName => .compound
  | _ => .normal

/-- A word that no further character of a name continues. -/
def keyword (word : List Char) : Peg ExprRule :=
  .seq (.text word) (.lacks (.rule identCont))

/-- A mark that is not the start of another one. -/
def notBefore (mark next : List Char) : Peg ExprRule :=
  .seq (.text mark) (.lacks (.text next))

def body : ExprRule → Peg ExprRule
  | whitespace => blank
  | comment => .alt (.rule lineComment) (.rule blockComment)
  | lineComment => lineOf (.text ['/', '/'])
  | blockComment => blockOf ['/', '*'] ['*', '/']
  | program => parts [.start, .rule statement, .finish]
  | statement => .alt (.rule returnStmt) (.rule tailStmt)
  | returnStmt => .seq (.rule returnKw) (.rule expression)
  | returnKw => keyword ['r', 'e', 't', 'u', 'r', 'n']
  | tailStmt => .seq (.rule expression) (.opt (.alt (.rule assignTail) (.rule clearTail)))
  | assignTail => parts [.text ['='], .lacks (.text ['=']), .rule expression]
  | clearTail => .seq (.text ['-']) (.ahead .finish)
  | expression => .rule ternary
  | ternary => .seq (.rule combination) (.opt (.rule ternaryTail))
  | ternaryTail =>
    parts [.text ['?'], .lacks (.text ['?']), .rule expression, .text [':'], .rule expression]
  | combination => separated (.rule fallback) (.rule combinatorOp)
  | combinatorOp => .alt (.rule unionOp) (.rule intersectOp)
  | unionOp => notBefore ['|'] ['|']
  | intersectOp => notBefore ['&'] ['&']
  | fallback => separated (.rule logicOr) (.rule fallbackOp)
  | fallbackOp => .text ['?', '?']
  | logicOr => separated (.rule logicAnd) (.rule orOp)
  | orOp => .text ['|', '|']
  | logicAnd => separated (.rule comparison) (.rule andOp)
  | andOp => .text ['&', '&']
  | comparison => separated (.rule additive) (.rule relOp)
  | relOp => choice [.rule le, .rule ge, .rule lt, .rule gt, .rule eq, .rule ne, .rule inOp]
  | le => .text ['<', '=']
  | ge => .text ['>', '=']
  | lt => .text ['<']
  | gt => .text ['>']
  | eq => .text ['=', '=']
  | ne => .text ['!', '=']
  | inOp => keyword ['i', 'n']
  | additive => separated (.rule multiplicative) (.rule addOp)
  | addOp => .alt (.rule plus) (.rule minus)
  | plus => .text ['+']
  | minus => .text ['-']
  | multiplicative => separated (.rule unary) (.rule mulOp)
  | mulOp => choice [.rule star, .rule slash, .rule percent]
  | star => .text ['*']
  | slash => notBefore ['/'] ['/']
  | percent => .text ['%']
  | unary => .seq (.star (.rule unaryOp)) (.rule postfixExpr)
  | unaryOp => .alt (.rule notOp) (.rule negOp)
  | notOp => .text ['!']
  | negOp => .text ['-']
  | postfixExpr => .seq (.rule primary) (.star (.rule postfixOp))
  | postfixOp =>
    choice [.rule fieldAccess, .rule sameName, .rule selector, .rule callArgs, .rule block]
  | fieldAccess => .seq (.text ['.']) (.rule memberRef)
  | sameName => .seq (.text [':', ':']) (.rule memberRef)
  | memberRef => .seq (.opt (.text ['$'])) (.rule ident)
  | selector => parts [.text ['['], .rule selectorBody, .text [']']]
  | selectorBody => .alt (.rule bindSelector) (.rule keyList)
  | bindSelector => parts [.text [':'], .rule ident, .opt (.rule bindFilter)]
  | bindFilter => .seq (.text ['|']) (.rule expression)
  | keyList => separated (.rule expression) (.text [','])
  | callArgs => parts [.text ['('], .opt (separated (.rule arg) (.text [','])), .text [')']]
  | arg => .alt (.rule namedArg) (.rule expression)
  | namedArg => parts [.rule ident, .text [':'], .rule expression]
  | block => membersOf openBrace (.rule blockMember) closeBrace
  | blockMember =>
    choice [.rule directive, .rule clearMember, .rule namedMember, .rule assignMember, .rule shorthandMember]
  | directive => parts [.rule structName, .text [':'], .rule expression]
  | clearMember => .seq (.text ['-']) (.rule memberRef)
  | namedMember => parts [.rule memberRef, .text [':'], .opt (.alt (.rule block) (.rule expression))]
  | assignMember => parts [.rule memberRef, .text ['='], .lacks (.text ['=']), .rule expression]
  | shorthandMember => .rule expression
  | primary =>
    choice [.rule noneKw, .rule boolean, .rule decimal, .rule integer, .rule string, .rule multiline,
      .rule list, .rule objectLiteral, .rule rootRef, .rule implicitField, .rule currentRef,
      .rule parentRef, .rule importRef, .rule paramRef, .rule structRef, .rule grouped, .rule nameRef]
  | noneKw => keyword ['n', 'o', 'n', 'e']
  | boolean =>
    .seq (.alt (.text ['t', 'r', 'u', 'e']) (.text ['f', 'a', 'l', 's', 'e'])) (.lacks (.rule identCont))
  | decimal =>
    parts [.opt (.text ['-']), many asciiDigit, .text ['.'], many asciiDigit,
      .opt (parts [.alt (.text ['e']) (.text ['E']), .opt (.alt (.text ['+']) (.text ['-'])), many asciiDigit])]
  | integer => .seq (.opt (.text ['-'])) (many asciiDigit)
  | string => .alt (.rule dquote) (.rule squote)
  | dquote => quoted doubleQuote (.rule dqChar)
  | squote => quoted singleQuote (.rule sqChar)
  | dqChar => quotedChar doubleQuote (.rule escape)
  | sqChar => quotedChar singleQuote (.rule escape)
  | escape => escapeOf (.rule unicode)
  | unicode => .seq (.text ['u']) hexDigits
  | multiline => parts [.text tripleQuote, .rule multilineBody, .text tripleQuote]
  | multilineBody => .star (.seq (.lacks (.text tripleQuote)) .any)
  | list =>
    parts [.text ['['], .opt (.seq (separated (.rule expression) (.text [','])) (.opt (.text [',']))), .text [']']]
  | objectLiteral => membersOf openBrace (.rule blockMember) closeBrace
  | rootRef => parts [.text ['/'], .lacks (.text ['/']), .opt (.rule memberRef)]
  | currentRef => .seq (.text ['.']) (.lacks (.alt (.rule ident) (.text ['$'])))
  | implicitField => .seq (.text ['.']) (.rule memberRef)
  | parentRef => many (.text ['^'])
  | importRef => .seq (.text ['#']) (.rule ident)
  | paramRef => .seq (.text ['@']) (.rule ident)
  | structRef => .seq (.text ['$']) (.rule ident)
  | nameRef => .rule ident
  | grouped => parts [.text ['('], .rule expression, .text [')']]
  | structName => .seq (.text ['$']) (.rule ident)
  | ident => .seq (.alt asciiAlpha (.text ['_'])) (.star (.rule identCont))
  | identCont => .alt asciiAlphanumeric (.text ['_'])

end ExprRule

/-- The expression grammar. -/
def exprGrammar : Grammar ExprRule :=
  ⟨ExprRule.kind, ExprRule.body, .whitespace, .comment⟩

end Expressions

section Documents

inductive DocRule
  | whitespace
  | comment
  | lineComment
  | blockComment
  | document
  | value
  | object
  | member
  | memberName
  | identName
  | array
  | string
  | dquote
  | squote
  | dqChar
  | sqChar
  | escape
  | unicode
  | multiline
  | multilineBody
  | number
  | intPart
  | frac
  | exp
  | boolean
  | nullKw
  | identCont
deriving DecidableEq

namespace DocRule

def kind : DocRule → RuleKind
  | whitespace | comment | lineComment | blockComment | intPart | frac | exp | identCont => .silent
  | identName | number | boolean | nullKw => .atomic
  | string | multiline => .compound
  | _ => .normal

def body : DocRule → Peg DocRule
  | whitespace => blank
  | comment => .alt (.rule lineComment) (.rule blockComment)
  | lineComment => lineOf (.alt (.text ['/', '/']) (.text ['#']))
  | blockComment => blockOf ['/', '*'] ['*', '/']
  | document => parts [.start, .rule value, .finish]
  | value =>
    choice [.rule object, .rule array, .rule multiline, .rule string, .rule boolean, .rule nullKw, .rule number]
  | object => membersOf openBrace (.rule member) closeBrace
  | member => parts [.rule memberName, .text [':'], .rule value]
  | memberName => .alt (.rule string) (.rule identName)
  | identName =>
    .seq (choice [.text ['$'], asciiAlpha, .text ['_']]) (.star (.alt asciiAlphanumeric (.text ['_'])))
  | array => membersOf '[' (.rule value) ']'
  | string => .alt (.rule dquote) (.rule squote)
  | dquote => quoted doubleQuote (.rule dqChar)
  | squote => quoted singleQuote (.rule sqChar)
  | dqChar => quotedChar doubleQuote (.rule escape)
  | sqChar => quotedChar singleQuote (.rule escape)
  | escape => escapeOf (.rule unicode)
  | unicode => .seq (.text ['u']) hexDigits
  | multiline => parts [.text tripleQuote, .rule multilineBody, .text tripleQuote]
  | multilineBody => .star (.seq (.lacks (.text tripleQuote)) .any)
  | number => parts [.opt (.text ['-']), .rule intPart, .opt (.rule frac), .opt (.rule exp)]
  | intPart => .alt (.text ['0']) (.seq (.char fun char => char.isDigit && char ≠ '0') (.star asciiDigit))
  | frac => .seq (.text ['.']) (many asciiDigit)
  | exp => parts [.alt (.text ['e']) (.text ['E']), .opt (.alt (.text ['+']) (.text ['-'])), many asciiDigit]
  | boolean =>
    .seq (.alt (.text ['t', 'r', 'u', 'e']) (.text ['f', 'a', 'l', 's', 'e'])) (.lacks (.rule identCont))
  | nullKw => .seq (.text ['n', 'u', 'l', 'l']) (.lacks (.rule identCont))
  | identCont => .alt asciiAlphanumeric (.text ['_'])

end DocRule

/-- The document grammar. -/
def docGrammar : Grammar DocRule :=
  ⟨DocRule.kind, DocRule.body, .whitespace, .comment⟩

end Documents

end Liasse.Syntax
