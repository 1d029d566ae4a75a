import ScopeLint.Text.Character

/-! Search patterns: literals, the point, sets of characters, anchors, groups, alternatives and
repetition. A pattern is read from text into a small expression; an expression is given its
meaning by the positions at which a match from a given position can end, the preferred ones first.
A text has a match if the expression ends somewhere from some position. -/

namespace ScopeLint

/-- What a set of characters is made of. -/
inductive CharItem where
  | span (first last : Char)
  | digit (negated : Bool)
  | space (negated : Bool)
  | word (negated : Bool)
deriving DecidableEq

def CharItem.accepts (c : Char) : CharItem → Bool
  | .span a b => a ≤ c && c ≤ b
  | .digit n => Text.isDigit c != n
  | .space n => Text.isBlank c != n
  | .word n => Text.isWord c != n

/-- Which of its ways a repetition prefers: the long ones, the short ones, or the first way that it
finds and no other. -/
inductive Greed where
  | greedy
  | lazy
  | possessive
deriving DecidableEq

inductive Pattern where
  | empty
  | anyChar
  | oneOf (negated : Bool) (items : List CharItem)
  | start
  | finish
  | both (first second : Pattern)
  | either (first second : Pattern)
  | repeated (greed : Greed) (body : Pattern) (least : Nat) (most : Option Nat)

namespace Pattern

/-! ### Meaning -/

/-- One step from each of the positions. -/
def advance (step : Nat → List Nat) (places : List Nat) : List Nat :=
  (places.flatMap step).eraseDups

def exactly (step : Nat → List Nat) : Nat → List Nat → List Nat
  | 0, places => places
  | n + 1, places => exactly step n (advance step places)

/-- Where one may stop from position `i` on: there, or where further steps lead. Long ways come
first or last. A step that stays where it is ends the way. -/
def choose (long : Bool) (i : Nat) (next : List Nat) (further : Nat → List Nat) : List Nat :=
  let onward := next.flatMap fun j => if j = i then [i] else further j
  (if long then onward ++ [i] else i :: onward).eraseDups

/-- The positions within at most `n` further steps from one position. -/
def within (step : Nat → List Nat) (long : Bool) : Nat → Nat → List Nat
  | 0, i => [i]
  | n + 1, i => choose long i (step i) (within step long n)

/-- The positions that any number of steps reaches, for each of the last `k + 1` positions of a text
of `size` characters. Steps never lead back, so the later positions are settled before the earlier
ones. -/
def reached (step : Nat → List Nat) (long : Bool) (size : Nat) : Nat → List (List Nat)
  | 0 => [choose long size (step size) fun _ => []]
  | k + 1 =>
    let later := reached step long size k
    let i := size - (k + 1)
    choose long i (step i) (fun j => (later[j - (i + 1)]?).getD []) :: later

/-- The positions after further steps, at most `spare` of them if that is given. -/
def further (step : Nat → List Nat) (long : Bool) (size : Nat) (spare : Option Nat) (i : Nat) :
    List Nat :=
  match spare with
  | some n => within step long n i
  | none => (reached step long size (size - i)).headD []

/-- The position after exactly `n` steps, each taken in the first way there is. -/
def march? (step : Nat → List Nat) : Nat → Nat → Option Nat
  | 0, i => some i
  | n + 1, i =>
    match step i with
    | [] => none
    | j :: _ => march? step n j

/-- The position after as many steps as there are, at most `n`, each taken in the first way there
is. -/
def rush (step : Nat → List Nat) : Nat → Nat → Nat
  | 0, i => i
  | n + 1, i =>
    match step i with
    | [] => i
    | j :: _ => if j = i then i else rush step n j

/-- The positions after at least `least` steps and at most `spare` more. -/
def repeats (step : Nat → List Nat) (size : Nat) (greed : Greed) (least : Nat)
    (spare : Option Nat) (i : Nat) : List Nat :=
  match greed with
  | .greedy => advance (further step true size spare) (exactly step least [i])
  | .lazy => advance (further step false size spare) (exactly step least [i])
  | .possessive => ((march? step least i).map (rush step (spare.getD (size + 1)))).toList

/-- The positions where a match that starts at `i` can end. The point does not match a line
break, and the end of the text is also found before a line break that ends it. -/
def ends (text : List Char) : Pattern → Nat → List Nat
  | empty, i => [i]
  | anyChar, i => match text[i]? with
    | some c => if c = '\n' then [] else [i + 1]
    | none => []
  | oneOf negated items, i => match text[i]? with
    | some c => if items.any (CharItem.accepts c) != negated then [i + 1] else []
    | none => []
  | start, i => if i = 0 then [i] else []
  | finish, i => if text.drop i = [] ∨ text.drop i = ['\n'] then [i] else []
  | both p q, i => advance (ends text q) (ends text p i)
  | either p q, i => (ends text p i ++ ends text q i).eraseDups
  | repeated greed p least most, i =>
    repeats (ends text p) text.length greed least (most.map (· - least)) i

/-- Whether the pattern matches somewhere in the text. -/
def foundIn (p : Pattern) (s : String) : Bool :=
  let text := s.toList
  (List.range (text.length + 1)).any fun i => !(ends text p i).isEmpty

/-! ### Reading -/

/-- Why a text is not a pattern. -/
inductive Defect where
  | missingParenthesis
  | unbalancedParenthesis
  | unterminatedSet
  /-- A range between two items, as they are written. -/
  | badRange (first last : String)
  | nothingToRepeat
  | multipleRepeat
  | badBounds
  | badEscape (c : Char)
  | endOfEscape
deriving DecidableEq

def Defect.message : Defect → String
  | missingParenthesis => "missing ), unterminated subpattern"
  | unbalancedParenthesis => "unbalanced parenthesis"
  | unterminatedSet => "unterminated character set"
  | badRange a b => "bad character range " ++ a ++ "-" ++ b
  | nothingToRepeat => "nothing to repeat"
  | multipleRepeat => "multiple repeat"
  | badBounds => "min repeat greater than max repeat"
  | badEscape c => "bad escape " ++ String.ofList ['\\', c]
  | endOfEscape => "bad escape (end of pattern)"

/-- A defect, the pattern and the position in it where the defect was found. -/
structure Error where
  defect : Defect
  pattern : String
  position : Nat
deriving DecidableEq

/-- The defect and its position; in a pattern of several lines, its line and column too. -/
def Error.message (e : Error) : String :=
  let plain := e.defect.message ++ " at position " ++ toString e.position
  let before := e.pattern.toList.take e.position
  let column := (before.reverse.takeWhile (· != '\n')).length + 1
  if e.pattern.toList.contains '\n' then
    plain ++ " (line " ++ toString (before.count '\n' + 1) ++ ", column " ++ toString column ++ ")"
  else plain

/-- A defect at a position. -/
abbrev Flaw := Defect × Nat

/-- A piece of a pattern and its position: a character, or one with a backslash before it. -/
inductive Token where
  | plain (c : Char)
  | escaped (c : Char)
deriving DecidableEq

def Token.text : Token → String
  | plain c => String.ofList [c]
  | escaped c => String.ofList ['\\', c]

abbrev Input := List (Nat × Token)

/-- Splits a pattern into tokens from a position on. A backslash at the very end escapes nothing. -/
def tokens : Nat → List Char → Except Flaw Input
  | _, [] => .ok []
  | i, ['\\'] => .error (.endOfEscape, i)
  | i, '\\' :: c :: rest => do return (i, .escaped c) :: (← tokens (i + 2) rest)
  | i, c :: rest => do return (i, .plain c) :: (← tokens (i + 1) rest)

/-- The meaning of a character after a backslash. -/
def escape (i : Nat) (c : Char) : Except Flaw CharItem :=
  match c with
  | 'd' => .ok (.digit false)
  | 'D' => .ok (.digit true)
  | 's' => .ok (.space false)
  | 'S' => .ok (.space true)
  | 'w' => .ok (.word false)
  | 'W' => .ok (.word true)
  | 'a' => .ok (.span '\x07' '\x07')
  | 'f' => .ok (.span '\x0c' '\x0c')
  | 'n' => .ok (.span '\n' '\n')
  | 'r' => .ok (.span '\r' '\r')
  | 't' => .ok (.span '\t' '\t')
  | 'v' => .ok (.span '\x0b' '\x0b')
  | c => if c.isAlphanum then .error (.badEscape c, i) else .ok (.span c c)

/-- The meaning of a token in a set. -/
def setItem : Nat × Token → Except Flaw CharItem
  | (_, .plain c) => .ok (.span c c)
  | (i, .escaped c) => escape i c

/-- The items between two single characters of a set. -/
def range (first last : Nat × Token) : Except Flaw CharItem := do
  let defect : Flaw := (.badRange first.2.text last.2.text, first.1)
  match ← setItem first, ← setItem last with
  | .span a _, .span b _ => if b < a then throw defect else return .span a b
  | _, _ => throw defect

/-- The items of a set up to its closing bracket, which as the first item stands for itself. -/
def readSet (opened : Nat) : List CharItem → Bool → Input → Except Flaw (List CharItem × Input)
  | _, _, [] => .error (.unterminatedSet, opened)
  | items, first, token :: rest => do
    if token.2 = .plain ']' ∧ ¬ first then return (items, rest)
    else
      let item ← setItem token
      match rest with
      | (_, .plain '-') :: last :: rest' =>
        if last.2 = .plain ']' then return (items ++ [item, .span '-' '-'], rest')
        else readSet opened (items ++ [← range token last]) false rest'
      | rest => readSet opened (items ++ [item]) false rest

/-- The digit that a token is. -/
def digitOf? : Nat × Token → Option Nat
  | (_, .plain c) => if c.isDigit then some (c.toNat - '0'.toNat) else none
  | _ => none

/-- Decimal digits at the front. -/
def readNumber (input : Input) : Option Nat × Input :=
  let isDigit (t : Nat × Token) : Bool := (digitOf? t).isSome
  let digits := (input.takeWhile isDigit).filterMap digitOf?
  (if digits.isEmpty then none else some (digits.foldl (10 * · + ·) 0), input.dropWhile isDigit)

/-- The bounds after an opening brace, if it opens a repetition. -/
def readBounds? (input : Input) : Option (Nat × Option Nat × Input) :=
  match readNumber input with
  | (some n, (_, .plain '}') :: rest) => some (n, some n, rest)
  | (low, (_, .plain ',') :: rest) =>
    match readNumber rest with
    | (high, (_, .plain '}') :: rest) => some (low.getD 0, high, rest)
    | _ => none
  | _ => none

/-- The bounds of a repetition at the front. -/
def readRepeat? : Input → Option (Nat × Option Nat × Input)
  | (_, .plain '*') :: rest => some (0, none, rest)
  | (_, .plain '+') :: rest => some (1, none, rest)
  | (_, .plain '?') :: rest => some (0, some 1, rest)
  | (_, .plain '{') :: rest => readBounds? rest
  | _ => none

/-- The mark after a repetition that tells which ways it prefers. -/
def readGreed : Input → Greed × Input
  | (_, .plain '?') :: rest => (.lazy, rest)
  | (_, .plain '+') :: rest => (.possessive, rest)
  | input => (.greedy, input)

/-- The last item read in a sequence: nothing that can be repeated, an item, or a repetition. -/
inductive Last where
  | nothing
  | item (p : Pattern)
  | again (p : Pattern)

def Last.pattern : Last → Pattern
  | nothing => empty
  | item p | again p => p

mutual

/-- Alternatives up to a closing parenthesis or the end. -/
def readChoice : Nat → Input → Except Flaw (Pattern × Input)
  | 0, input => .ok (empty, input)
  | fuel + 1, input => do
    let (p, rest) ← readSequence fuel empty .nothing input
    match rest with
    | (_, .plain '|') :: rest => do
      let (q, rest) ← readChoice fuel rest
      return (either p q, rest)
    | rest => return (p, rest)

/-- Items one after the other; `done` is what precedes the last one. -/
def readSequence : Nat → Pattern → Last → Input → Except Flaw (Pattern × Input)
  | 0, done, last, input => .ok (both done last.pattern, input)
  | fuel + 1, done, last, input =>
    let push (next : Last) (rest : Input) := readSequence fuel (both done last.pattern) next rest
    let anchor (p : Pattern) (rest : Input) :=
      readSequence fuel (both (both done last.pattern) p) .nothing rest
    match readRepeat? input with
    | some (least, most, rest) =>
      let i := (input.head?.map Prod.fst).getD 0
      if most.any (· < least) then .error (.badBounds, i + 1)
      else match last with
      | .nothing => .error (.nothingToRepeat, i)
      | .again _ => .error (.multipleRepeat, i)
      | .item p =>
        let (greed, rest) := readGreed rest
        readSequence fuel done (.again (repeated greed p least most)) rest
    | none =>
      match input with
      | [] => .ok (both done last.pattern, [])
      | (i, .escaped c) :: rest => do
        let item ← escape i c
        push (.item (oneOf false [item])) rest
      | (i, .plain c) :: rest =>
        match c with
        | '|' | ')' => .ok (both done last.pattern, input)
        | '.' => push (.item anyChar) rest
        | '^' => anchor start rest
        | '$' => anchor finish rest
        | '(' => do
          let inner := match rest with
            | (_, .plain '?') :: (_, .plain ':') :: r => r
            | r => r
          let (p, rest) ← readChoice fuel inner
          match rest with
          | (_, .plain ')') :: rest => push (.item p) rest
          | _ => .error (.missingParenthesis, i)
        | '[' => do
          let (negated, inner) := match rest with
            | (_, .plain '^') :: r => (true, r)
            | r => (false, r)
          let (items, rest) ← readSet i [] true inner
          push (.item (oneOf negated items)) rest
        | c => push (.item (oneOf false [.span c c])) rest

end

/-- Reads all tokens of a pattern. Every step takes a token or opens a sequence, so twice their
number bounds the steps. -/
def ofTokens (input : Input) : Except Flaw Pattern := do
  let (p, rest) ← readChoice (2 * input.length + 2) input
  match rest with
  | [] => return p
  | (i, _) :: _ => .error (.unbalancedParenthesis, i)

/-- Reads a whole text as a pattern. -/
def ofText (s : String) : Except Error Pattern :=
  match tokens 0 s.toList >>= ofTokens with
  | .ok p => .ok p
  | .error (defect, position) => .error ⟨defect, s, position⟩

end Pattern

end ScopeLint
