import Disposal.Compilation

/-!
# Sketches of programs

Small programs with their syntax trees, put together from parts that find their offsets by themselves. They serve as
samples.

* `Sketch.ofLabel`: a node over parts that follow each other;
* `Sketch.document`: a file that holds some declarations.
-/

namespace Disposal

/-- A tree that can stand at any offset, the text it covers, and the blanks after it. -/
structure Sketch where
  text : String
  gap : String
  tree : Nat → Tree

namespace Sketch

/-! ### Building blocks -/

/-- The trees of parts that follow each other from an offset on. -/
def place (start : Nat) : List Sketch → List Tree
  | [] => []
  | s :: ss => s.tree start :: place (start + s.text.utf8ByteSize + s.gap.utf8ByteSize) ss

def leaf (label : Label) (text : String) : Sketch where
  text := text
  gap := ""
  tree start := .node ⟨label, none, start, start + text.utf8ByteSize, text⟩ []

/-- A node over some parts. -/
def ofLabel (label : Label) (parts : List Sketch) : Sketch :=
  let text := String.join (parts.map fun s => s.text ++ s.gap)
  { text := text
    gap := ""
    tree := fun start => .node ⟨label, none, start, start + text.utf8ByteSize, text⟩ (place start parts) }

def ofKind (k : Kind) (parts : List Sketch) : Sketch := ofLabel (.kind k) parts

/-- The part in a field of the node around it. -/
def inField (s : Sketch) (f : Field) : Sketch where
  text := s.text
  gap := s.gap
  tree start :=
    match s.tree start with
    | .node h cs => .node { h with field? := some f } cs

/-- The part with a blank after it. -/
def spaced (s : Sketch) : Sketch := { s with gap := " " }

def token (text : String) : Sketch := leaf (.token text) text

/-- Parts between two tokens. -/
def between (opening closing : String) (parts : List Sketch) : List Sketch :=
  [token opening] ++ parts ++ [token closing]

/-! ### Expressions -/

def name (text : String) : Sketch := leaf (.kind .identifier) text

def self : Sketch := ofKind .thisExpression [token "this"]

/-- `receiver.member` -/
def access (receiver : Sketch) (member : String) : Sketch :=
  ofKind .memberAccessExpression [receiver.inField .expression, token ".", (name member).inField .name]

/-- `function(…)` -/
def call (function : Sketch) (arguments : List Sketch) : Sketch :=
  ofKind .invocationExpression
    [function.inField .function,
     (ofKind .argumentList (between "(" ")" (arguments.map fun a => ofKind .argument [a]))).inField .arguments]

/-- `new T()` -/
def create (type : String) : Sketch :=
  ofKind .objectCreationExpression
    [(token "new").spaced, (name type).inField .type, (ofKind .argumentList (between "(" ")" [])).inField .arguments]

/-- `e as T` -/
def asType (e : Sketch) (type : String) : Sketch :=
  ofKind .asExpression [(e.inField .left).spaced, (token "as").spaced, (name type).inField .right]

/-- `(T)e` -/
def castTo (type : String) (e : Sketch) : Sketch :=
  ofKind .castExpression [token "(", (name type).inField .type, token ")", e.inField .value]

/-- `e!` -/
def forgiven (e : Sketch) : Sketch := ofKind .postfixUnaryExpression [e, token "!"]

/-- `left+right`, or with another operator -/
def operation (left : Sketch) (operator : String) (right : Sketch) : Sketch :=
  ofKind .binaryExpression
    [left.inField .left, (token operator).inField (.other "operator"), right.inField .right]

/-- `condition?left:right` -/
def conditional (condition left right : Sketch) : Sketch :=
  ofKind .conditionalExpression
    [condition.inField .condition, token "?", left.inField .consequence, token ":", right.inField .alternative]

/-- `(e)` -/
def parens (e : Sketch) : Sketch := ofKind .parenthesizedExpression (between "(" ")" [e])

/-- `!e` -/
def negation (e : Sketch) : Sketch := ofKind .prefixUnaryExpression [token "!", e]

/-! ### Statements -/

/-- `e;` -/
def statement (e : Sketch) : Sketch := ofKind .expressionStatement [e, token ";"]

/-- `left=right;` -/
def assign (left right : Sketch) : Sketch :=
  statement (ofKind .assignmentExpression
    [left.inField .left, ofLabel (.other "assignment_operator") [token "="], right.inField .right])

/-- `return e;` -/
def returning (e : Sketch) : Sketch := ofKind .returnStatement [(token "return").spaced, e, token ";"]

/-- `return;` -/
def leaving : Sketch := ofKind .returnStatement [token "return", token ";"]

/-- `if(condition)consequence` -/
def choose (condition consequence : Sketch) : Sketch :=
  ofKind .ifStatement
    [token "if", token "(", condition.inField .condition, token ")", consequence.inField .consequence]

/-- `if(condition)consequence else alternative` -/
def chooseElse (condition consequence alternative : Sketch) : Sketch :=
  ofKind .ifStatement
    [token "if", token "(", condition.inField .condition, token ")", (consequence.inField .consequence).spaced,
     (token "else").spaced, alternative.inField .alternative]

/-- `T x=value` -/
def variableOf (type variableName : String) (value : Sketch) : Sketch :=
  ofKind .variableDeclaration
    [((name type).inField .type).spaced,
     ofKind .variableDeclarator [name variableName, ofKind .equalsValueClause [token "=", value]]]

/-- `T x=value;` -/
def declare (type variableName : String) (value : Sketch) : Sketch :=
  ofKind .localDeclarationStatement [variableOf type variableName value, token ";"]

/-- `T x=value,y=value;` -/
def declareTwo (type first : String) (value : Sketch) (second : String) (other : Sketch) : Sketch :=
  let declarator (variableName : String) (v : Sketch) : Sketch :=
    ofKind .variableDeclarator [name variableName, ofKind .equalsValueClause [token "=", v]]
  ofKind .localDeclarationStatement
    [ofKind .variableDeclaration
      [((name type).inField .type).spaced, declarator first value, token ",", declarator second other], token ";"]

def block (statements : List Sketch) : Sketch := (ofKind .block (between "\x7b" "\x7d" statements)).inField .body

/-- `foreach(T x in collection){…}` -/
def loop (type variableName : String) (collection : Sketch) (body : List Sketch) : Sketch :=
  ofKind .forEachStatement
    [token "foreach", token "(", ((name type).inField .type).spaced, ((name variableName).inField .left).spaced,
     (token "in").spaced, collection.inField .right, token ")", block body]

/-- `try{…}catch(T x){…}` -/
def attempt (body : List Sketch) (type variableName : String) (handler : List Sketch) : Sketch :=
  ofKind .tryStatement
    [token "try", block body,
     ofKind .catchClause
      [token "catch",
       ofKind .catchDeclaration
        (between "(" ")" [((name type).inField .type).spaced, (name variableName).inField .name]),
       block handler]]

/-! ### Declarations -/

/-- Modifiers in front of a declaration. -/
def modifiers (words : List String) : List Sketch := words.map fun w => (ofKind .modifier [token w]).spaced

/-- `T x=value;` -/
def fieldOf (words : List String) (type fieldName : String) (value : Sketch) : Sketch :=
  ofKind .fieldDeclaration (modifiers words ++ [variableOf type fieldName value, token ";"])

/-- `T x{get{…}}=value;` -/
def propertyOf (type propertyName : String) (getter : List Sketch) (value : Sketch) : Sketch :=
  ofKind .propertyDeclaration
    [((name type).inField .type).spaced, (name propertyName).inField .name,
     (ofKind .accessorList
       (between "\x7b" "\x7d" [ofKind .accessorDeclaration [token "get", block getter]])).inField .accessors,
     token "=", value.inField .value, token ";"]

/-- `T x{get{…}}` -/
def computedOf (type propertyName : String) (getter : List Sketch) : Sketch :=
  ofKind .propertyDeclaration
    [((name type).inField .type).spaced, (name propertyName).inField .name,
     (ofKind .accessorList
       (between "\x7b" "\x7d" [ofKind .accessorDeclaration [token "get", block getter]])).inField .accessors]

def parameterOf (type parameterName : String) : Sketch :=
  ofKind .parameter [((name type).inField .type).spaced, (name parameterName).inField .name]

/-- `void M(…){…}`, or with another type. -/
def method (words : List String) (type : Sketch) (methodName : String) (parameters body : List Sketch) : Sketch :=
  ofKind .methodDeclaration
    (modifiers words ++
      [(type.inField .type).spaced, (name methodName).inField .name,
       (ofKind .parameterList (between "(" ")" parameters)).inField .parameters, block body])

/-- `[M("first","second")]` -/
def mark (markName first second : String) : Sketch :=
  let argument (content : String) : Sketch :=
    ofLabel (.other "attribute_argument")
      [ofKind .stringLiteral [{ token "\"" with gap := content }, token "\""]]
  ofKind .attributeList (between "[" "]"
    [ofKind .attributeUse
      [(name markName).inField .name,
       ofLabel (.other "attribute_argument_list") (between "(" ")" [argument first, token ",", argument second])]])

/-- A declaration with a mark in front of it. -/
def marked (m decl : Sketch) : Sketch where
  text := m.text ++ decl.text
  gap := decl.gap
  tree start :=
    match decl.tree (start + m.text.utf8ByteSize) with
    | .node h cs => .node { h with start := start, text := m.text ++ h.text } (m.tree start :: cs)

/-- `static T operator +(…){…}` -/
def addition (type : String) (parameters body : List Sketch) : Sketch :=
  ofKind .operatorDeclaration
    (modifiers ["static"] ++
      [((name type).inField .type).spaced, (token "operator").spaced, (token "+").inField (.other "operator"),
       (ofKind .parameterList (between "(" ")" parameters)).inField .parameters, block body])

def void : Sketch := leaf (.other "void_keyword") "void"

/-- `class C{…}` -/
def classOf (className : String) (members : List Sketch) : Sketch :=
  ofKind .classDeclaration
    [(token "class").spaced, (name className).inField .name,
     (ofKind .declarationList (between "\x7b" "\x7d" members)).inField .body]

/-- `class C:A,B{…}` -/
def subclassOf (className : String) (bases : List String) (members : List Sketch) : Sketch :=
  ofKind .classDeclaration
    [(token "class").spaced, (name className).inField .name,
     (ofKind .baseList (token ":" :: (bases.map name).intersperse (token ","))).inField .bases,
     (ofKind .declarationList (between "\x7b" "\x7d" members)).inField .body]

/-- A file that holds some declarations. -/
def document (path : String) (declarations : List Sketch) : Document :=
  let unit := ofLabel (.other "compilation_unit") declarations
  { path? := some path, text := unit.text, tree := unit.tree 0 }

end Sketch

end Disposal
