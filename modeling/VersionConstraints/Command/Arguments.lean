import VersionConstraints.Command.Basic

namespace VersionConstraints.Arguments

inductive Verb
  | compare
  | check
  | sort
  | bump
  | explain
deriving DecidableEq

namespace Verb

def name : Verb → Text
  | compare => "compare".toList
  | check   => "check".toList
  | sort    => "sort".toList
  | bump    => "bump".toList
  | explain => "explain".toList

def ofName? (name : Text) : Option Verb :=
  [compare, check, sort, bump, explain].find? (·.name == name)

-- How many operands there can be, if there is a limit.
def room : Verb → Option Nat
  | compare => some 2
  | check   => none
  | sort    => none
  | bump    => some 2
  | explain => some 1

def command? (reverse : Bool) : Verb → List Text → Option Command
  | compare, [left, right] => some (.compare left right)
  | check, expression :: v :: vs => some (.check expression (v :: vs))
  | sort, v :: vs => some (.sort (v :: vs) reverse)
  | bump, [part, version] => (Part.ofName? part).map (.bump · version)
  | explain, [expression] => some (.explain expression)
  | _, _ => none

end Verb

-- What ends the reading of arguments before their end.
inductive Halt
  | rejected
  | help
  | version
deriving DecidableEq

-- The flags given on one side of the verb. All but the verbosity are given once;
-- strict and loose replace each other.
structure Flags where
  scheme?   : Option Scheme
  strict?   : Option Bool
  json      : Bool
  verbosity : Nat
  reverse   : Bool
deriving DecidableEq

namespace Flags

def none : Flags :=
  ⟨.none, .none, false, 0, false⟩

def setScheme (f : Flags) (name : Text) : Except Halt Flags :=
  match f.scheme?, Scheme.ofName? name with
  | .none, some s => .ok { f with scheme? := some s }
  | _, _ => .error .rejected

def setStrict (f : Flags) (strict : Bool) : Except Halt Flags :=
  if f.strict? = some strict then .error .rejected else .ok { f with strict? := some strict }

def setJson (f : Flags) : Except Halt Flags :=
  if f.json then .error .rejected else .ok { f with json := true }

def setReverse (f : Flags) : Except Halt Flags :=
  if f.reverse then .error .rejected else .ok { f with reverse := true }

def addVerbosity (f : Flags) : Flags :=
  { f with verbosity := f.verbosity + 1 }

-- The version can be asked for in front of the verb only, the reverse order after `sort` only.
def setLong (verb? : Option Verb) (f : Flags) (name : Text) : Except Halt Flags :=
  if name = "strict".toList then f.setStrict true
  else if name = "no-strict".toList then f.setStrict false
  else if name = "json".toList then f.setJson
  else if name = "verbose".toList then .ok f.addVerbosity
  else if name = "help".toList then .error .help
  else if name = "version".toList ∧ verb? = .none then .error .version
  else if name = "reverse".toList ∧ verb? = some .sort then f.setReverse
  else
    match "scheme=".toList.isPrefixOf name with
    | true => f.setScheme (name.drop 7)
    | false => .error .rejected

def setShort (verb? : Option Verb) (f : Flags) (c : Char) : Except Halt Flags :=
  if c = 'v' then .ok f.addVerbosity
  else if c = 'h' then .error .help
  else if c = 'V' ∧ verb? = .none then .error .version
  else if c = 'r' ∧ verb? = some .sort then f.setReverse
  else .error .rejected

end Flags

-- What a single argument is: the mark that ends the options, the scheme option with its name in the
-- next argument, other options, or an operand. A lone hyphen is an operand.
inductive Kind
  | done
  | scheme
  | long (name : Text)
  | short (letters : Text)
  | operand
deriving DecidableEq

def Kind.ofText : Text → Kind
  | ['-', '-'] => done
  | '-' :: '-' :: name => if name = "scheme".toList then scheme else long name
  | '-' :: c :: cs => short (c :: cs)
  | _ => operand

-- Whether a text can be the operand that follows `n` others. What is bumped comes after its part.
def takes (verb : Verb) (n : Nat) (operand : Text) : Bool :=
  verb.room.all (n < ·) && (verb ≠ .bump || n ≠ 0 || (Part.ofName? operand).isSome)

-- The flags and operands after a verb, which may be mixed, with the number of operands so far.
def readOperands (verb : Verb) : Nat → Flags → List Text → Except Halt (Flags × List Text)
  | _, f, [] => .ok (f, [])
  | n, f, arg :: args =>
    match Kind.ofText arg with
    | .done =>
      match verb.room with
      | some m => if n + args.length ≤ m then .ok (f, args) else .error .rejected
      | none => .ok (f, args)
    | .scheme =>
      match args with
      | [] => .error .rejected
      | name :: args => do readOperands verb n (← f.setScheme name) args
    | .long name => do readOperands verb n (← f.setLong (some verb) name) args
    | .short letters => do
      readOperands verb n (← letters.foldlM (Flags.setShort (some verb)) f) args
    | .operand =>
      if takes verb n arg then do
        let (f, operands) ← readOperands verb (n + 1) f args
        return (f, arg :: operands)
      else .error .rejected

-- The flags in front of the verb hold for the command too. Of two schemes the
-- later one holds, and of two verbosities too.
def merge (front back : Flags) : Options where
  scheme?   := back.scheme? <|> front.scheme?
  strict    := front.strict? == some true || back.strict? == some true
  loose     := front.strict? == some false || back.strict? == some false
  json      := front.json || back.json
  verbosity := if back.verbosity = 0 then front.verbosity else back.verbosity

def isHelp (name : Text) : Bool :=
  name == "help".toList

-- Help on at most one topic, which is a verb or help itself.
def readTopics : List Text → Except Halt Request
  | [] => .error .help
  | [topic] => .error (if isHelp topic || (Verb.ofName? topic).isSome then .help else .rejected)
  | _ => .error .rejected

def readVerb (f : Flags) (name : Text) (args : List Text) : Except Halt Request :=
  if isHelp name then readTopics args
  else
    match Verb.ofName? name with
    | none => .error .rejected
    | some verb => do
      let (back, operands) ← readOperands verb 0 Flags.none args
      match verb.command? back.reverse operands with
      | some command => return .run command (merge f back)
      | none => throw .rejected

-- No verb at all is fine only where nothing else is given.
def withoutVerb (f : Flags) : Except Halt Request :=
  if f = Flags.none then .ok .none else .error .rejected

def readFront : Flags → List Text → Except Halt Request
  | f, [] => withoutVerb f
  | f, arg :: args =>
    match Kind.ofText arg with
    | .done => if args.isEmpty then withoutVerb f else .error .rejected
    | .scheme =>
      match args with
      | [] => .error .rejected
      | name :: args => do readFront (← f.setScheme name) args
    | .long name => do readFront (← f.setLong .none name) args
    | .short letters => do readFront (← letters.foldlM (Flags.setShort .none) f) args
    | .operand => readVerb f arg args

def read (args : List Text) : Request :=
  match readFront Flags.none args with
  | .ok request => request
  | .error .rejected => .rejected
  | .error .help => .help
  | .error .version => .version

end VersionConstraints.Arguments
