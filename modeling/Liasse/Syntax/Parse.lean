/-
This file models the parsing of expressions and documents: the bound on brackets, the run of the grammar and the
lowering of its pairs.
-/

import Liasse.Syntax.Grammar

namespace Liasse.Syntax

open Codes (Pair Grammar Outcome Cursor)

/-- A parse that gives no tree: it needs more calls, the brackets nest too deep, the grammar rejects the text,
a pair has a foreign shape, or the tree is too deep. -/
inductive Stop
  | fuel
  | nesting
  | grammar
  | shape
  | depth
deriving DecidableEq

section Pairs

variable {R : Type}

def firstInner (pair : Pair R) : Except Stop (Pair R) :=
  match pair.inner with
  | first :: _ => .ok first
  | [] => .error .shape

/-- The first pair of a match, and the pairs behind it. -/
def next : List (Pair R) → Except Stop (Pair R × List (Pair R))
  | first :: rest => .ok (first, rest)
  | [] => .error .shape

/-- The pairs that a rule leaves on a whole text. -/
def pairsOf [DecidableEq R] (grammar : Grammar R) (start : R) (fuel : Nat) (text : List Char) :
    Except Stop (List (Pair R)) :=
  match grammar.run fuel .plain (.rule start) ⟨0, 0, text⟩ with
  | none => .error .fuel
  | some .fail => .error .grammar
  | some (.ok _ pairs) => .ok pairs

/-- The text of a multiline block. Its gutter is its column. -/
def multilineText (pair : Pair R) : String :=
  let body := match pair.inner with
    | body :: _ => body.text
    | [] => []
  String.ofList (decodeMultiline body pair.column)

def quotedText (pair : Pair R) : String :=
  String.ofList (decodeQuoted pair.text)

end Pairs

section Expressions

abbrev ExprPair := Pair ExprRule

/-- A name from its own pair, or from a pair with a mark before the name. -/
def identOf (pair : ExprPair) : Except Stop Ident := do
  let structural := pair.text.head? = some '$'
  if pair.name = .ident then pure ⟨String.ofList pair.text, structural⟩
  else pure ⟨String.ofList (← firstInner pair).text, structural⟩

variable (node : ExprPair → Except Stop Expr)

def blockMember (pair : ExprPair) : Except Stop BlockMember := do
  let inner ← firstInner pair
  match inner.name with
  | .directive =>
    let (name, rest) ← next inner.inner
    let (value, _) ← next rest
    pure (.directive (← identOf name) (← node value))
  | .clearMember => pure (.clear (← identOf (← firstInner inner)))
  | .namedMember =>
    let (name, rest) ← next inner.inner
    let name ← identOf name
    match rest with
    | value :: _ => pure (.named name (some (← node value)))
    | [] => pure (.named name none)
  | .assignMember =>
    let (target, rest) ← next inner.inner
    let (value, _) ← next rest
    pure (.assign (← identOf target) (← node value))
  | .shorthandMember => pure (.shorthand (← node (← firstInner inner)))
  | _ => throw .shape

def blockMembers (pair : ExprPair) : Except Stop (List BlockMember) :=
  (pair.inner.filter fun member => member.name = .blockMember).mapM (blockMember node)

def exprList (pair : ExprPair) : Except Stop (List Expr) :=
  pair.inner.mapM node

def rootRef (pair : ExprPair) : Except Stop Expr :=
  match pair.inner with
  | member :: _ => do pure (.field .root (← identOf member))
  | [] => pure .root

def implicitField (pair : ExprPair) : Except Stop Expr := do
  pure (.field .current (← identOf (← firstInner pair)))

def primary (pair : ExprPair) : Except Stop Expr := do
  let inner ← firstInner pair
  match inner.name with
  | .noneKw => pure .none
  | .boolean => pure (.bool (inner.text = ['t', 'r', 'u', 'e']))
  | .decimal => pure (.decimal (String.ofList inner.text))
  | .integer => pure (.int (String.ofList inner.text))
  | .string => pure (.str (quotedText inner))
  | .multiline => pure (.str (multilineText inner))
  | .list => pure (.list (← exprList node inner))
  | .objectLiteral => pure (.object (← blockMembers node inner))
  | .rootRef => rootRef inner
  | .currentRef => pure .current
  | .implicitField => implicitField inner
  | .parentRef => pure (.parent inner.text.length)
  | .importRef => pure (.imported (← identOf inner))
  | .paramRef => pure (.param (← identOf inner))
  | .structRef => pure (.structural (← identOf inner))
  | .nameRef => pure (.name (← identOf inner))
  | .grouped => node (← firstInner inner)
  | _ => throw .shape

def selector (pair : ExprPair) : Except Stop Selector := do
  let body ← firstInner (← firstInner pair)
  match body.name with
  | .bindSelector =>
    let (name, rest) ← next body.inner
    let name ← identOf name
    match rest with
    | filter :: _ => pure (.bind name (some (← node (← firstInner filter))))
    | [] => pure (.bind name none)
  | .keyList => pure (.keys (← body.inner.mapM node))
  | _ => throw .shape

def callArg (pair : ExprPair) : Except Stop Arg := do
  let inner ← firstInner pair
  match inner.name with
  | .namedArg =>
    let (name, rest) ← next inner.inner
    let name ← identOf name
    let (value, _) ← next rest
    pure (.named name (← node value))
  | _ => pure (.positional (← node inner))

def applyPostfix (base : Expr) (op : ExprPair) : Except Stop Expr := do
  let inner ← firstInner op
  match inner.name with
  | .fieldAccess => pure (.field base (← identOf (← firstInner inner)))
  | .sameName => pure (.sameName base (← identOf (← firstInner inner)))
  | .selector => pure (.select base (← selector node inner))
  | .callArgs => pure (.call base (← inner.inner.mapM (callArg node)))
  | .block => pure (.block base (← blockMembers node inner))
  | _ => throw .shape

def postfixChain (pair : ExprPair) : Except Stop Expr := do
  let (first, rest) ← next pair.inner
  rest.foldlM (applyPostfix node) (← primary node first)

def ternary (pair : ExprPair) : Except Stop Expr := do
  let (first, rest) ← next pair.inner
  let cond ← node first
  match rest with
  | [] => pure cond
  | tail :: _ =>
    let (yes, rest) ← next tail.inner
    let yes ← node yes
    let (otherwise, _) ← next rest
    pure (.ternary cond yes (← node otherwise))

def combinatorOp (pair : ExprPair) : Except Stop CombinatorOp := do
  match (← firstInner pair).name with
  | .unionOp => pure .union
  | .intersectOp => pure .intersect
  | _ => throw .shape

/-- The operators and operands behind the first operand of a combination. -/
def combined : List ExprPair → Except Stop (List CombinatorOp × List Expr)
  | [] => pure ([], [])
  | [_] => throw .shape
  | op :: operand :: rest => do
      let op ← combinatorOp op
      let operand ← node operand
      let (ops, operands) ← combined rest
      pure (op :: ops, operand :: operands)

def combination (pair : ExprPair) : Except Stop Expr := do
  let (first, rest) ← next pair.inner
  let first ← node first
  let (ops, operands) ← combined node rest
  if ops = [] then pure first else pure (.combination (first :: operands) ops)

def binaryOp (pair : ExprPair) : Except Stop BinaryOp := do
  match pair.name with
  | .orOp => pure .or
  | .andOp => pure .and
  | .fallbackOp => pure .fallback
  | _ =>
    match (← firstInner pair).name with
    | .eq => pure .eq
    | .ne => pure .ne
    | .le => pure .le
    | .ge => pure .ge
    | .lt => pure .lt
    | .gt => pure .gt
    | .inOp => pure .within
    | .plus => pure .add
    | .minus => pure .sub
    | .star => pure .mul
    | .slash => pure .div
    | .percent => pure .rem
    | _ => throw .shape

/-- The operators of one level group to the left. -/
def binaryChain (acc : Expr) : List ExprPair → Except Stop Expr
  | [] => pure acc
  | [_] => throw .shape
  | op :: operand :: rest => do
      let op ← binaryOp op
      let rhs ← node operand
      binaryChain (.binary op acc rhs) rest

def binaryLayer (pair : ExprPair) : Except Stop Expr := do
  let (first, rest) ← next pair.inner
  binaryChain node (← node first) rest

def unaryOp (pair : ExprPair) : Except Stop UnaryOp := do
  match (← firstInner pair).name with
  | .notOp => pure .not
  | .negOp => pure .neg
  | _ => throw .shape

/-- The last pair of a unary chain is its operand, and the operators apply from there outwards. -/
def unary (pair : ExprPair) : Except Stop Expr :=
  match pair.inner.reverse with
  | [] => throw .shape
  | operand :: ops => do
      ops.foldlM (fun acc op => do pure (.unary (← unaryOp op) acc)) (← node operand)

/-- The tree of a pair of the expression family, within a number of nested calls. -/
def lower : Nat → ExprPair → Except Stop Expr
  | 0, _ => .error .fuel
  | fuel + 1, pair =>
    match pair.name with
    | .expression => do lower fuel (← firstInner pair)
    | .ternary => ternary (lower fuel) pair
    | .combination => combination (lower fuel) pair
    | .fallback | .logicOr | .logicAnd | .comparison | .additive | .multiplicative =>
      binaryLayer (lower fuel) pair
    | .unary => unary (lower fuel) pair
    | .postfixExpr => postfixChain (lower fuel) pair
    | .primary => primary (lower fuel) pair
    | .block => do pure (.object (← blockMembers (lower fuel) pair))
    | _ => .error .shape

def tailStmt (pair : ExprPair) : Except Stop Stmt := do
  let (first, rest) ← next pair.inner
  let expr ← node first
  match rest with
  | [] => pure (.bare expr)
  | tail :: _ =>
    match tail.name with
    | .assignTail => pure (.assign expr (← node (← firstInner tail)))
    | .clearTail => pure (.clear expr)
    | _ => throw .shape

def statement (pair : ExprPair) : Except Stop Stmt := do
  let inner ← firstInner pair
  match inner.name with
  | .returnStmt =>
    match inner.inner.find? fun pair => pair.name = .expression with
    | some value => pure (.returned (← node value))
    | none => throw .shape
  | .tailStmt => tailStmt node inner
  | _ => throw .shape

/-- The statement of a text, within a number of nested calls. -/
def parseExpression (fuel : Nat) (text : List Char) : Except Stop Stmt := do
  if nestsWithin .expression text then
    let (program, _) ← next (← pairsOf exprGrammar .program fuel text)
    let tree ← statement (lower fuel) (← firstInner program)
    if tree.depth ≤ maxNestingDepth then pure tree else throw .depth
  else throw .nesting

end Expressions

section Documents

/-- A document value. A number keeps its source text. -/
inductive DocValue
  | null
  | bool (value : Bool)
  | number (text : String)
  | string (text : String)
  | array (items : List DocValue)
  | object (members : List (String × DocValue))

abbrev DocPair := Pair DocRule

variable (value : DocPair → Except Stop DocValue)

def docName (pair : DocPair) : Except Stop String := do
  let inner ← firstInner pair
  match inner.name with
  | .string => pure (quotedText inner)
  | .identName => pure (String.ofList inner.text)
  | _ => throw .shape

def docMember (pair : DocPair) : Except Stop (String × DocValue) := do
  let (name, rest) ← next pair.inner
  let (inner, _) ← next rest
  pure (← docName name, ← value inner)

/-- The value of a pair, within a number of nested calls. -/
def lowerValue : Nat → DocPair → Except Stop DocValue
  | 0, _ => .error .fuel
  | fuel + 1, pair => do
      let inner ← firstInner pair
      match inner.name with
      | .object =>
        pure (.object (← (inner.inner.filter fun pair => pair.name = .member).mapM
          (docMember (lowerValue fuel))))
      | .array =>
        pure (.array (← (inner.inner.filter fun pair => pair.name = .value).mapM (lowerValue fuel)))
      | .multiline => pure (.string (multilineText inner))
      | .string => pure (.string (quotedText inner))
      | .boolean => pure (.bool (inner.text = ['t', 'r', 'u', 'e']))
      | .nullKw => pure .null
      | .number => pure (.number (String.ofList inner.text))
      | _ => throw .shape

/-- The value of a document text, within a number of nested calls. -/
def parseDocument (fuel : Nat) (text : List Char) : Except Stop DocValue := do
  if nestsWithin .document text then
    let (document, _) ← next (← pairsOf docGrammar .document fuel text)
    lowerValue fuel (← firstInner document)
  else throw .nesting

end Documents

section Readings

/-- A text is accepted as an expression or a statement with this tree. -/
def Reads (text : List Char) (tree : Stmt) : Prop :=
  ∃ fuel, parseExpression fuel text = .ok tree

/-- A text is accepted as a document with this value. -/
def ReadsDocument (text : List Char) (value : DocValue) : Prop :=
  ∃ fuel, parseDocument fuel text = .ok value

def ident (text : String) : Ident :=
  ⟨text, false⟩

/-- A comment starts outside the strings of an expression. -/
def hasComment : Nat → List Char → Bool
  | 0, _ => false
  | _ + 1, [] => false
  | steps + 1, char :: rest =>
    let text := char :: rest
    if ['/', '/'].isPrefixOf text ∨ ['/', '*'].isPrefixOf text then true
    else if tripleQuote.isPrefixOf text then
      match skipMultiline text with
      | some after => hasComment steps after
      | none => false
    else if char = doubleQuote ∨ char = singleQuote then
      match skipString char rest with
      | some after => hasComment steps after
      | none => false
    else hasComment steps rest

/-- The whole text reads as a `-name`, as a `name = …` or as a `name: …` member. -/
def ReadsAsMember (text : List Char) : Prop :=
  ∃ rule ∈ [ExprRule.clearMember, .namedMember, .assignMember], ∃ fuel cursor pairs,
    exprGrammar.run fuel .plain (parts [.text [], .rule rule, .finish]) ⟨0, 0, text⟩ = some (.ok cursor pairs)

/-- The tree of an expression stands at its place in each context, and no member is split off. -/
structure ContextFree (text : List Char) (tree : Expr) : Prop where
  grouped : Reads (['('] ++ text ++ [')']) (.bare tree)
  listed : Reads (['['] ++ text ++ [']']) (.bare (.list [tree]))
  called : Reads (['f', '('] ++ text ++ [')']) (.bare (.call (.name (ident "f")) [.positional tree]))
  selected : Reads (['.', 'c', '['] ++ text ++ [']'])
    (.bare (.select (.field .current (ident "c")) (.keys [tree])))
  filtered : Reads (['.', 'c', '[', ':', 'x', ' ', '|', ' '] ++ text ++ [']'])
    (.bare (.select (.field .current (ident "c")) (.bind (ident "x") (some tree))))
  projected : Reads (['.', ' ', openBrace, ' ', 'x', ':', ' '] ++ text ++ [' ', closeBrace])
    (.bare (.block .current [.named (ident "x") (some tree)]))
  shorthand : ¬ReadsAsMember text → Reads (['.', ' ', openBrace, ' '] ++ text ++ [' ', closeBrace])
    (.bare (.block .current [.shorthand tree]))

/-- The escaped form of a character between two quotes. -/
def escapedChar (quote char : Char) : List Char :=
  if char = quote ∨ char = backslash then [backslash, char]
  else if char = lineFeed then [backslash, 'n']
  else if char = carriageReturn then [backslash, 'r']
  else [char]

def escaped (quote : Char) (text : List Char) : List Char :=
  [quote] ++ text.flatMap (escapedChar quote) ++ [quote]

/-- An escaped quoted text reads as the text in both grammars. -/
def QuotedAlike (text : List Char) : Prop :=
  ∀ quote, isQuote quote = true →
    Reads (escaped quote text) (.bare (.str (String.ofList text))) ∧
      ReadsDocument (escaped quote text) (.string (String.ofList text))

/-- A triple-quoted body reads as its text without the gutter in both grammars. -/
def TripledAlike (body : List Char) : Prop :=
  Reads (tripleQuote ++ body ++ tripleQuote) (.bare (.str (String.ofList (decodeMultiline body 0)))) ∧
    ReadsDocument (tripleQuote ++ body ++ tripleQuote) (.string (String.ofList (decodeMultiline body 0)))

/-- The three texts of one reading: an expression, a text to quote, and a body without the closing marks. -/
structure Reading where
  expression : List Char
  text : List Char
  body : List Char
  unmarked : ¬ tripleQuote <:+: body

/-- An expression parses alike in each context, and strings mean the same text everywhere. -/
structure Reading.Alike (reading : Reading) : Prop where
  context : hasComment reading.expression.length reading.expression = false →
    ∀ tree, Reads reading.expression (.bare tree) → ContextFree reading.expression tree
  quoted : QuotedAlike reading.text
  tripled : TripledAlike reading.body

end Readings

section Choice

end Choice

end Liasse.Syntax
