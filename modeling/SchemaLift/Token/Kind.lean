import SchemaLift.Text.Blank

/-!
# Kinds of tokens

The tokens of Ruby source that matter to the upgrade of declarations: names, literals, comments,
the block words `do` and `end`, and punctuation. Any other operator character is an `operator`.
-/

namespace SchemaLift

inductive TokenKind where
  | doWord
  | endWord
  | arrow
  | hashRocket
  | scope
  | dot
  | comma
  | semicolon
  | lparen
  | rparen
  | lbracket
  | rbracket
  | lbrace
  | rbrace
  | pipe
  | bang
  | colon
  | operator
  | doubleQuoted
  | singleQuoted
  | symbol
  | label
  | number
  | comment
  | constant
  | identifier
  | instanceVariable
  | globalVariable
  deriving DecidableEq, Repr, Inhabited

namespace TokenKind

/-- What a token of this kind is called in a message. -/
def description : TokenKind → String
  | doWord => "'do'"
  | endWord => "'end'"
  | arrow => "'->'"
  | hashRocket => "'=>'"
  | scope => "'::'"
  | dot => "'.'"
  | comma => "','"
  | semicolon => "';'"
  | lparen => "'('"
  | rparen => "')'"
  | lbracket => "'['"
  | rbracket => "']'"
  | lbrace => "'\x7b'"
  | rbrace => "'\x7d'"
  | pipe => "'|'"
  | bang => "'!'"
  | colon => "':'"
  | operator => "operator"
  | doubleQuoted | singleQuoted => "string literal"
  | symbol => "symbol"
  | label => "label"
  | number => "number"
  | comment => "comment"
  | constant => "constant"
  | identifier => "identifier"
  | instanceVariable => "instance variable"
  | globalVariable => "global variable"

def opensBracket : TokenKind → Bool
  | lparen | lbracket | lbrace => true
  | _ => false

def closesBracket : TokenKind → Bool
  | rparen | rbracket | rbrace => true
  | _ => false

def isString : TokenKind → Bool
  | doubleQuoted | singleQuoted => true
  | _ => false

end TokenKind

end SchemaLift
