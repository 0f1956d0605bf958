import CallAtlas.Tree

/-! # Syntax errors

An error names what was needed and the token that stands there instead, or the region that a rule
about whole lines and clauses forbids.
-/
namespace CallAtlas.Grammar

/-- What was needed where another token was found. -/
inductive Expectation where
  | expression
  | validToken
  | lessNesting
  | endOfFile
  | endOfExpression
  | endOfDoBlock
  | endOfFn
  | closingDelimiter
  | closingParen
  | closingParenOfClause
  | singleExpression
  | closingBracket
  | closingInterpolation
  | keywordKey
  | structName
  | structBody
  | attributeName
  | memberName
  | captureArity
  deriving DecidableEq, Repr

def Expectation.message : Expectation → Bytes
  | .expression => text "Expected expression"
  | .validToken => text "Invalid token"
  | .lessNesting => text "Expression nested too deeply"
  | .endOfFile => text "Unexpected token at top level"
  | .endOfExpression => text "Expected end of expression"
  | .endOfDoBlock => text "Expected 'end' to close 'do' block"
  | .endOfFn => text "Expected 'end' to close 'fn'"
  | .closingDelimiter => text "Expected closing delimiter"
  | .closingParen => text "Expected ')'"
  | .closingParenOfClause => text "Expected ')' after clause"
  | .singleExpression => text "Unexpected ',' in parentheses"
  | .closingBracket => text "Expected ']' after access key"
  | .closingInterpolation => text "Expected '\x7d' to close interpolation"
  | .keywordKey => text "Expected keyword key"
  | .structName => text "Expected struct name or '\x7b' after '%'"
  | .structBody => text "Expected '\x7b' after struct name"
  | .attributeName => text "Expected attribute name after '@'"
  | .memberName => text "Expected name after '.'"
  | .captureArity => text "Expected arity after '/'"

/-- Why a text is no expression. -/
inductive SyntaxError where
  | lexical (e : LexicalError)
  | unexpected (needed : Expectation) (found : Token)
  | commaBetweenExpressions (span : Span)
  | clauseWithoutArrow (span : Span)
  | noClauses (span : Span)
  deriving Repr

namespace SyntaxError

def message : SyntaxError → Bytes
  | lexical e => e.fault.message
  | unexpected needed found => needed.message ++ text ", found " ++ found.describe
  | commaBetweenExpressions _ => text "Unexpected ',' between expressions"
  | clauseWithoutArrow _ => text "Expected '->' in anonymous function"
  | noClauses _ => text "Anonymous function has no clauses"

/-- The region that an error is about. -/
def span : SyntaxError → Span
  | lexical e => e.span
  | unexpected _ found => found.span
  | commaBetweenExpressions span | clauseWithoutArrow span | noClauses span => span

end SyntaxError

end CallAtlas.Grammar
