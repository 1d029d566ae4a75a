import ScopeLint.Text.Pattern
import ScopeLint.Text.Quoted

/-! Everything that can go wrong, as causes, and the wording of each. The word `class` stands for
the name of the class of the value that was found. -/

namespace ScopeLint

inductive Fault where
  /-- A value without the part that was asked for. -/
  | missingAttribute (className key : String)
  /-- A node class that does not exist. -/
  | unknownClass (name : String)
  /-- A node that has no place in the program that is written or evaluated. -/
  | unsupportedNode (className : String)
  | notSubscriptable (className : String)
  | notCallable (className : String)
  | notIterable (className : String)
  /-- A value in which nothing can be looked for. -/
  | notContainer (className : String)
  | notHashable (className : String)
  /-- A value without a length. -/
  | noLength (className : String)
  /-- A value that cannot be spread over the arguments of a function. -/
  | notArguments (className : String)
  /-- A value that cannot be spread over the items of a list. -/
  | notSpreadable (className : String)
  /-- A value among texts that are joined, by its index. -/
  | notJoinable (index : Nat) (className : String)
  /-- A value that is no text and so cannot be searched. -/
  | notSearchable (className : String)
  /-- Bytes, which cannot be searched for a text. -/
  | searchedBytes
  /-- Bytes, which cannot be split at a text. -/
  | splitBytes
  /-- Two values of which none comes before the other. -/
  | notOrdered (left right : String)
  /-- A value that names no class. -/
  | notClassName (className : String)
  /-- A value that cannot be appended to a text. -/
  | notText (className : String)
  /-- A value that cannot be written as a whole number. -/
  | notNumber (className : String)
  /-- A number that is no whole number, by its name. -/
  | notFinite (name : String)
  /-- A value where a tree was expected. -/
  | notTree (className : String)
  /-- Something that is not a class, where one was expected. -/
  | notClass
  /-- Two values that an operator does not combine. -/
  | notCombinable (sign left right : String)
  /-- A value that cannot be put behind bytes. -/
  | notBytes (className : String)
  /-- A value that cannot be put behind a list. -/
  | notListed (className : String)
  /-- A value that has no negative. -/
  | notNegatable (className : String)
  /-- A bound of a part of a list that is no whole number. -/
  | badBound
  /-- An option that is not of the form of one, by its index. -/
  | badOption (index : Nat)
  /-- A key that a table does not have, as it is written in a program. -/
  | missingKey (key : String)
  | unknownOperator (className : String)
  /-- An element that a list does not have. -/
  | noElement
  /-- An element that a frozen list does not have. -/
  | noEntry
  /-- A character that a text does not have. -/
  | noCharacter
  /-- A byte that some bytes do not have. -/
  | noByte
  | notLiteral (className : String)
  /-- A reference without a point in it. -/
  | noModulePart
  /-- A condition that the input does not meet. -/
  | violated
  | untypedParameters
  /-- A value that has no place in a program text. -/
  | notWritable (text : String)
  | intTooLarge
  /-- A whole number with so many digits that it has no text. -/
  | tooManyDigits
  | missingFile (path : String)
  | isDirectory (path : String)
  | notDirectory (path : String)
  | missingModule (name : String)
  | unparseable
  | badPattern (error : Pattern.Error)
  /-- A recursion that does not end. -/
  | endless
  /-- A way that leads nowhere in a template. -/
  | unknownPath
deriving DecidableEq

namespace Fault

/-- The fault of a name that a table does not have. -/
def missingName (name : String) : Fault := .missingKey (Text.quote name)

/-- The wording of a fault. Two causes have none. -/
def message? : Fault → Option String
  | missingAttribute c k => some ("'" ++ c ++ "' object has no attribute '" ++ k ++ "'")
  | unknownClass n => some ("module 'ast' has no attribute '" ++ n ++ "'")
  | unsupportedNode c => some ("No defined handler for node of type " ++ c)
  | notSubscriptable c => some ("'" ++ c ++ "' object is not subscriptable")
  | notCallable c => some ("'" ++ c ++ "' object is not callable")
  | notIterable c => some ("'" ++ c ++ "' object is not iterable")
  | notContainer c => some ("argument of type '" ++ c ++ "' is not iterable")
  | notHashable c => some ("unhashable type: '" ++ c ++ "'")
  | noLength c => some ("object of type '" ++ c ++ "' has no len()")
  | notArguments c => some ("astor.code_gen.SourceGenerator.__init__.<locals>.write() argument after "
      ++ "* must be an iterable, not " ++ c)
  | notSpreadable c => some ("Value after * must be an iterable, not " ++ c)
  | notJoinable i c => some
      ("sequence item " ++ toString i ++ ": expected str instance, " ++ c ++ " found")
  | notSearchable c => some ("expected string or bytes-like object, got '" ++ c ++ "'")
  | searchedBytes => some "cannot use a string pattern on a bytes-like object"
  | splitBytes => some "a bytes-like object is required, not 'str'"
  | notOrdered l r => some
      ("'<' not supported between instances of '" ++ l ++ "' and '" ++ r ++ "'")
  | notClassName c => some ("attribute name must be string, not '" ++ c ++ "'")
  | notText c => some ("can only concatenate str (not \"" ++ c ++ "\") to str")
  | notNumber c => some ("%d format: a real number is required, not " ++ c)
  | notFinite n => some ("cannot convert float " ++ n ++ " to integer")
  | notTree c => some ("expected AST, got '" ++ c ++ "'")
  | notClass => some "isinstance() arg 2 must be a type, a tuple of types, or a union"
  | notCombinable sign l r => some
      ("unsupported operand type(s) for " ++ sign ++ ": '" ++ l ++ "' and '" ++ r ++ "'")
  | notBytes c => some ("can't concat " ++ c ++ " to bytes")
  | notListed c => some ("can only concatenate list (not \"" ++ c ++ "\") to list")
  | notNegatable c => some ("bad operand type for unary -: '" ++ c ++ "'")
  | badBound => some "slice indices must be integers or None or have an __index__ method"
  | badOption i => some
      ("cannot convert dictionary update sequence element #" ++ toString i ++ " to a sequence")
  | missingKey k => some k
  | unknownOperator c => some ("<class '" ++ c ++ "'>")
  | noElement => some "list index out of range"
  | noEntry => some "tuple index out of range"
  | noCharacter => some "string index out of range"
  | noByte => some "index out of range"
  | notLiteral c => some ("Don't know how to eval " ++ c)
  | noModulePart => some "not enough values to unpack (expected 2, got 1)"
  | violated => some ""
  | untypedParameters => some "All template args should have AST classes"
  | notWritable t => some t
  | intTooLarge => some "int too large to convert to float"
  | tooManyDigits => some ("Exceeds the limit (4300 digits) for integer string conversion; "
      ++ "use sys.set_int_max_str_digits() to increase the limit")
  | missingFile p => some ("[Errno 2] No such file or directory: " ++ Text.quote p)
  | isDirectory p => some ("[Errno 21] Is a directory: " ++ Text.quote p)
  | notDirectory p => some ("[Errno 20] Not a directory: " ++ Text.quote p)
  | missingModule n => some ("No module named " ++ Text.quote n)
  | unparseable => some "unparseable"
  | badPattern e => some e.message
  | endless => none
  | unknownPath => none

end Fault

end ScopeLint
