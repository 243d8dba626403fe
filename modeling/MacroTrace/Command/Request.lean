import MacroTrace.Command.Words
import MacroTrace.Settings.Basic

/-!
# Requests

What a command line asks for: a command with its arguments, and the options in
front of it.
-/

namespace MacroTrace.Command

/-- A use given on a command line.  It is a call if it has arguments or is said
to be one.  The name is missing if a separator stands in its place. -/
structure UseRequest where
  root : String
  name : Option String
  arguments : List String
  call : Bool
  deriving DecidableEq, Repr

inductive Task where
  | scan (root : String)
  | expand (request : UseRequest)
  | hover (request : UseRequest)
  | tree (request : UseRequest)
  | check (root : String) (files : List String)
  deriving DecidableEq, Repr

/-- A value given to an option. -/
inductive Given (α : Type) where
  /-- A separator stands in place of the value. -/
  | separator
  | value (value : α)
  deriving DecidableEq, Repr

def Given.value? {α : Type} : Given α → Option α
  | separator => none
  | value given => some given

structure Options where
  verbosity : Nat
  quiet : Bool
  config : Option String
  mode : Option (Given String)
  maxDepth : Option (Given Int)
  noStrip : Bool
  database : Option String
  /-- Whether there are words that nothing takes. -/
  hasExtras : Bool
  deriving DecidableEq, Repr

def Options.none : Options :=
  ⟨0, false, Option.none, Option.none, Option.none, false, Option.none, false⟩

structure Request where
  options : Options
  task : Task
  deriving DecidableEq, Repr

/-- Digits with single underscores between them. -/
def groupedDigits? (expected : Bool) (found : Text) : Text → Option Text
  | [] => if expected then none else some found.reverse
  | c :: rest =>
      if Text.isDigit c then groupedDigits? false (c :: found) rest
      else if c = '_' && !expected then groupedDigits? true found rest
      else none

/-- The most digits that a number may have. -/
def maxNumberLength : Nat := 4300

/-- Blanks that may stand around a number: all but the four ASCII separators of
information. -/
def isNumberBlank (c : Char) : Bool :=
  Text.isBlank c && !(28 ≤ c.toNat && c.toNat ≤ 31)

/-- The whole number that a word gives; blanks around it and a sign are
allowed. -/
def integer? (word : Text) : Option Int := do
  let trimmed :=
    ((word.dropWhile isNumberBlank).reverse.dropWhile isNumberBlank).reverse
  let (isNegative, unsigned) :=
    match trimmed with
    | '-' :: rest => (true, rest)
    | '+' :: rest => (false, rest)
    | _ => (false, trimmed)
  let digits ← groupedDigits? true [] unsigned
  if maxNumberLength < digits.length then Option.none
  else
    let value : Int := Text.numeralValue digits
    return if isNegative then -value else value

/-- Read a value, unless it is the separator. -/
def given {α : Type} (read? : Text → Option α) (word : Text) :
    Except Stop (Given α) :=
  if word = separator then .ok .separator
  else
    match read? word with
    | some value => .ok (.value value)
    | Option.none => .error .usage

def path? (word : Text) : Option String :=
  some (String.ofList word)

/-- The name of a mode. -/
def modeName? (word : Text) : Option String :=
  let name := String.ofList word
  if (Mode.ofLabel? name).isSome then some name else Option.none

/-- Take the action of a flag.  A path that is only a separator stands for
none. -/
def applyFlag (options : Options) (flag : Flag) (value : Option Text) :
    Except Stop Options :=
  let word := value.getD []
  match flag with
  | .help => .error .help
  | .version => .error .version
  | .verbose => .ok { options with verbosity := options.verbosity + 1 }
  | .quiet => .ok { options with quiet := true }
  | .config => do return { options with config := (← given path? word).value? }
  | .mode => do return { options with mode := some (← given modeName? word) }
  | .maxDepth => do
    return { options with maxDepth := some (← given integer? word) }
  | .noStrip => .ok { options with noStrip := true }
  | .database => do
    return { options with database := (← given path? word).value? }
  | .progress => .ok options
  | .call => .ok options

def applyCluster (options : Options) (cluster : Cluster) :
    Except Stop Options :=
  cluster.foldlM
    (fun options entry => applyFlag options entry.1 entry.2) options

/-- The options in front of the command, and the words from the command on. -/
def readOptions (options : Options) (words : List Word) :
    Except Stop (Options × List Text) :=
  match words with
  | [] => .error .usage
  | (word, .argument) :: rest => .ok (options, word :: rest.map (·.1))
  | (_, .separator) :: _ => .error .usage
  | (_, .unknown) :: rest => readOptions { options with hasExtras := true } rest
  | (_, .option marked) :: rest =>
      match _taken : takeOption mainTable marked rest with
      | .error stop => .error stop
      | .ok (cluster, behind) =>
          match applyCluster options cluster with
          | .error stop => .error stop
          | .ok options => readOptions options behind
termination_by words.length
decreasing_by
  · simp
  · have := takeOption_length _taken
    simp
    omega

/-- How many words an argument of a command takes. -/
inductive Arity where
  | one
  | any
  | some
  deriving DecidableEq, Repr

def isSeparator (word : Word) : Bool :=
  word.2 == .separator

def isPlain (word : Word) : Bool :=
  !word.2.isOption

/-- The words that an argument takes, and the others. -/
def Arity.take? (arity : Arity) (words : List Word) :
    Option (List Text × List Word) :=
  let front := words.takeWhile isSeparator
  match arity, words.drop front.length with
  | .any, _ =>
      let plain := words.takeWhile isPlain
      Option.some (plain.map (·.1), words.drop plain.length)
  | .one, (word, .argument) :: rest =>
      let back := rest.takeWhile isSeparator
      Option.some (front.map (·.1) ++ word :: back.map (·.1),
        rest.drop back.length)
  | .some, (word, .argument) :: rest =>
      let plain := rest.takeWhile isPlain
      Option.some (front.map (·.1) ++ word :: plain.map (·.1),
        rest.drop plain.length)
  | _, _ => none

/-- The words that several arguments take, if there are enough. -/
def takeAll? : List Arity → List Word → Option (List (List Text) × List Word)
  | [], words => Option.some ([], words)
  | arity :: others, words => do
      let (group, rest) ← arity.take? words
      let (groups, rest) ← takeAll? others rest
      return (group :: groups, rest)

/-- The words that as many arguments as possible take. -/
def takeMost (arities : List Arity) (words : List Word) :
    List (List Text) × List Word :=
  let counts := (List.range arities.length).reverse.map (· + 1)
  (counts.findSome? fun count => takeAll? (arities.take count) words).getD
    ([], words)

/-- The arguments of a command as far as they have been read. -/
structure Arguments where
  wanted : List Arity
  groups : List (List Text)
  call : Bool
  hasExtras : Bool
  deriving DecidableEq, Repr

def Arguments.fill (arguments : Arguments)
    (groups : List (List Text)) : Arguments :=
  { arguments with
    wanted := arguments.wanted.drop groups.length
    groups := arguments.groups ++ groups }

/-- Take the action of the flags in a word. -/
def Arguments.applyCluster (arguments : Arguments) (cluster : Cluster) :
    Except Stop Arguments :=
  if cluster.any (·.1 == .help) then .error .help
  else
    .ok { arguments with call := arguments.call || cluster.any (·.1 == .call) }

/-- Read the words of a command.  Each word uses up fuel. -/
def readArguments (table : Table) : Nat → Arguments → List Word →
    Except Stop Arguments
  | 0, arguments, _ => .ok arguments
  | fuel + 1, arguments, words =>
      match words with
      | (_, .option marked) :: rest => do
          let (cluster, rest) ← takeOption table marked rest
          let arguments ← arguments.applyCluster cluster
          readArguments table fuel arguments rest
      | (_, .unknown) :: rest =>
          readArguments table fuel { arguments with hasExtras := true } rest
      | _ =>
          let (groups, rest) := takeMost arguments.wanted words
          let filled := arguments.fill groups
          if rest.length < words.length then
            readArguments table fuel filled rest
          else if rest.isEmpty then .ok filled
          else
            readArguments table fuel { filled with hasExtras := true }
              (rest.dropWhile isPlain)

/-- The words of an argument, without the first separator among them. -/
def groupWords (group : List Text) : List String :=
  (group.erase separator).map String.ofList

/-- The word of an argument that takes one. -/
def groupWord? (group : List Text) : Option String :=
  (groupWords group).head?

def required (group : List Text) : Except Stop String :=
  match groupWord? group with
  | some word => .ok word
  | Option.none => .error .usage

/-- The arguments of a command, and whether there are words that nothing
takes. -/
def argumentsOf (table : Table) (arities : List Arity) (words : List Text) :
    Except Stop Arguments := do
  let classified ← classifyAll table words
  let arguments ← readArguments table (words.length + 1)
      ⟨arities, [], false, false⟩ classified
  if arguments.wanted.isEmpty then return arguments else .error .usage

def useRequest (words : List Text) : Except Stop (UseRequest × Bool) := do
  let arguments ← argumentsOf useTable [.one, .one, .any] words
  match arguments.groups with
  | [root, name, others] =>
      return (⟨← required root, groupWord? name, groupWords others,
        arguments.call⟩, arguments.hasExtras)
  | _ => .error .usage

/-- The task that a command and its words give, and whether there are words that
nothing takes. -/
def taskOf (command : String) (words : List Text) : Except Stop (Task × Bool) :=
  do
    match command with
    | "scan" =>
        let arguments ← argumentsOf helpTable [.one] words
        match arguments.groups with
        | [root] => return (.scan (← required root), arguments.hasExtras)
        | _ => .error .usage
    | "expand" =>
        let (request, hasExtras) ← useRequest words
        return (.expand request, hasExtras)
    | "hover" =>
        let (request, hasExtras) ← useRequest words
        return (.hover request, hasExtras)
    | "tree" =>
        let (request, hasExtras) ← useRequest words
        return (.tree request, hasExtras)
    | "check" =>
        let arguments ← argumentsOf helpTable [.one, .some] words
        match arguments.groups with
        | [root, files] =>
            return (.check (← required root) (groupWords files),
              arguments.hasExtras)
        | _ => .error .usage
    | _ => .error .usage

/-- The request that the words of a command line make. -/
def Request.ofWords (words : List String) : Except Stop Request := do
  let classified ← classifyAll mainTable (words.map String.toList)
  let (options, rest) ← readOptions Options.none classified
  match rest with
  | [] => .error .usage
  | command :: arguments =>
      let (task, hasExtras) ← taskOf (String.ofList command) arguments
      if options.hasExtras || hasExtras then .error .usage
      else return ⟨options, task⟩

end MacroTrace.Command
