import MacroTrace.Text.Character

/-!
# Words of a command line

Each word of a command line is an argument, the separator behind which all words
are arguments, or an option.  Long options may be abbreviated as long as only
one begins that way; short ones may be written together.
-/

namespace MacroTrace.Command

/-- Ways in which reading a command line ends without a request. -/
inductive Stop where
  /-- The command line is malformed. -/
  | usage
  | help
  | version
  deriving DecidableEq, Repr

inductive Flag where
  | help
  | version
  | verbose
  | quiet
  | config
  | mode
  | maxDepth
  | noStrip
  | database
  | progress
  | call
  deriving DecidableEq, Repr

def Flag.takesValue : Flag → Bool
  | config => true
  | mode => true
  | maxDepth => true
  | database => true
  | _ => false

/-- The spellings of options. -/
abbrev Table := List (Text × Flag)

def helpTable : Table := [
  ("-h".toList, .help),
  ("--help".toList, .help)]

/-- The options in front of a command. -/
def mainTable : Table := helpTable ++ [
  ("--version".toList, .version),
  ("-v".toList, .verbose),
  ("--verbose".toList, .verbose),
  ("-q".toList, .quiet),
  ("--quiet".toList, .quiet),
  ("--config".toList, .config),
  ("--mode".toList, .mode),
  ("--max-depth".toList, .maxDepth),
  ("--no-strip".toList, .noStrip),
  ("--database".toList, .database),
  ("--progress".toList, .progress)]

/-- The options of commands about one use. -/
def useTable : Table :=
  helpTable ++ [("--call".toList, .call)]

/-- An option, and what is written behind it in the same word. -/
structure Marked where
  flag : Flag
  isShort : Bool
  attached : Option Text
  deriving DecidableEq, Repr

inductive Shape where
  | argument
  | separator
  | option (marked : Marked)
  /-- An option that is not in the table. -/
  | unknown
  deriving DecidableEq, Repr

def Shape.isOption : Shape → Bool
  | option _ => true
  | unknown => true
  | _ => false

/-- A minus sign and digits, possibly with a point among them. -/
def isNegativeNumber (word : Text) : Bool :=
  let word := if word.getLast? == some '\n' then word.dropLast else word
  match word with
  | '-' :: rest =>
      let whole := rest.takeWhile Text.isDigit
      match rest.drop whole.length with
      | [] => !whole.isEmpty
      | '.' :: points => !points.isEmpty && points.all Text.isDigit
      | _ => false
  | _ => false

def isLong (word : Text) : Bool :=
  ['-', '-'].isPrefixOf word

/-- What stands behind the first equals sign. -/
def afterEquals? (word : Text) : Option Text :=
  match word.dropWhile (· ≠ '=') with
  | [] => none
  | _ :: rest => some rest

/-- The options that an abbreviated word can mean. -/
def meanings (table : Table) (word : Text) : List Marked :=
  if isLong word then
    let start := word.takeWhile (· ≠ '=')
    (table.filter fun entry => start.isPrefixOf entry.1).map fun entry =>
      ⟨entry.2, false, afterEquals? word⟩
  else
    (table.filter fun entry => entry.1 = word.take 2).map fun entry =>
      ⟨entry.2, true, some (word.drop 2)⟩

/-- The shape of a word in front of the separator. -/
def classify (table : Table) (word : Text) : Except Stop Shape :=
  if word.head? != some '-' then .ok .argument
  else
    match table.lookup word with
    | some flag => .ok (.option ⟨flag, !isLong word, none⟩)
    | none =>
        if word.length = 1 then .ok .argument
        else
          match afterEquals? word, table.lookup (word.takeWhile (· ≠ '=')) with
          | some attached, some flag =>
              .ok (.option ⟨flag, !isLong word, some attached⟩)
          | _, _ =>
              match meanings table word with
              | [marked] => .ok (.option marked)
              | _ :: _ :: _ => .error .usage
              | [] =>
                  if isNegativeNumber word || word.contains ' ' then
                    .ok .argument
                  else .ok .unknown

/-- The word behind which all words are arguments. -/
def separator : Text := ['-', '-']

/-- A word and its shape. -/
abbrev Word := Text × Shape

/-- The shapes of all words. -/
def classifyAll (table : Table) : List Text → Except Stop (List Word)
  | [] => .ok []
  | word :: rest =>
      if word = separator then
        .ok ((word, .separator) :: rest.map fun other => (other, .argument))
      else do
        let shape ← classify table word
        let others ← classifyAll table rest
        return (word, shape) :: others

/-- The flags of a word, each with its value. -/
abbrev Cluster := List (Flag × Option Text)

/-- The flags that the letters behind a short option stand for.  All of them
must be known. -/
def letterFlags (table : Table) : Text → Except Stop Cluster
  | [] => .ok []
  | c :: rest =>
      match table.lookup ['-', c] with
      | none => .error .usage
      | some flag => do
          let others ← letterFlags table rest
          return (flag, none) :: others

/-- The flags of an option with something attached to it: its value, or further
letters. -/
def attachedCluster (table : Table) (marked : Marked) (attached : Text) :
    Except Stop Cluster :=
  if marked.flag.takesValue then .ok [(marked.flag, some attached)]
  else if marked.isShort && !attached.isEmpty then do
    let others ← letterFlags table attached
    return (marked.flag, none) :: others
  else .error .usage

/-- The flags of an option, and the words behind it and its value. -/
def takeOption (table : Table) (marked : Marked) (rest : List Word) :
    Except Stop (Cluster × List Word) :=
  match marked.attached with
  | some attached =>
      (attachedCluster table marked attached).map fun cluster => (cluster, rest)
  | none =>
      if marked.flag.takesValue then
        match rest with
        | (value, .argument) :: rest => .ok ([(marked.flag, some value)], rest)
        | _ => .error .usage
      else .ok ([(marked.flag, none)], rest)

theorem takeOption_length
    {table : Table} {marked : Marked} {rest behind : List Word}
    {cluster : Cluster}
    (taken : takeOption table marked rest = .ok (cluster, behind)) :
    behind.length ≤ rest.length := by
  unfold takeOption at taken
  split at taken
  · cases found : attachedCluster table marked ‹_› with
    | error stop => simp [found, Except.map] at taken
    | ok value =>
        simp only [found, Except.map, Except.ok.injEq, Prod.mk.injEq] at taken
        simp [taken.2]
  · split at taken
    · split at taken
      · simp only [Except.ok.injEq, Prod.mk.injEq] at taken
        simp [← taken.2]
      · simp at taken
    · simp only [Except.ok.injEq, Prod.mk.injEq] at taken
      simp [taken.2]

end MacroTrace.Command
