/-!
# Errors of host patterns
-/
namespace NodeQuery.Host

/-- What is wrong with a comma-separated list of patterns. -/
inductive ListFault where
  | nestedBracket | unmatchedClose | missingClose | emptyName
  deriving DecidableEq, Repr

def ListFault.message : ListFault → String
  | .nestedBracket => "nested brackets"
  | .unmatchedClose => "unmatched end bracket"
  | .missingClose => "Missing end bracket"
  | .emptyName => "Empty host name"

/-- The first six arise while a pattern is read, the others while it is used. -/
inductive PatternError where
  | invalidNumber | numberOutOfRange | rangeTooLarge | expectedComma | commaNotAllowed
  | invalidRange (first last : Nat)
  | expressionTooLarge
  | illegalList (fault : ListFault)
  | wildcardNotAllowed (pattern : String)
  | expansionTooLarge (pattern : String)
  deriving DecidableEq, Repr

def PatternError.message : PatternError → String
  | .invalidNumber => "Invalid number in glob set"
  | .numberOutOfRange => "Number out of range in glob set"
  | .rangeTooLarge => "Range too large, use more '*'"
  | .expectedComma => "Expected ',' or ']' in glob set"
  | .commaNotAllowed => "',' not allowed here"
  | .invalidRange first last => s!"Invalid range {first}-{last}"
  | .expressionTooLarge => "Expression too large, use more '*'"
  | .illegalList fault => s!"Illegal pattern: {fault.message}"
  | .wildcardNotAllowed pattern => s!"Wildcard not allowed in expandable pattern '{pattern}'"
  | .expansionTooLarge pattern => s!"Expansion too large for pattern '{pattern}'"

end NodeQuery.Host
