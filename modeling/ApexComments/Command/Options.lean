import ApexComments.Text.Numeral
import ApexComments.Text.Quoted

/-!
# Command line options

A command line is a list of words. Words that start with a dash are options: long options may be cut
short where that is unambiguous, and take their value after an equals sign or as the next word. Two
dashes by themselves end the options; after an equals sign they hold the value back. At most one word
is the operand.
-/
namespace ApexComments

open Text

/-- What an option takes. -/
inductive OptionForm where
  /-- Asks for help. -/
  | help
  /-- Takes nothing. -/
  | flag
  /-- Takes a text. -/
  | text
  /-- Takes an integer. -/
  | integer
  deriving DecidableEq, Repr

/-- An option with the names that it goes by. -/
structure OptionSpec (ι : Type) where
  id : ι
  names : List Text
  form : OptionForm

/-- The options and the operand of a command. -/
structure Usage (ι : Type) where
  options : List (OptionSpec ι)
  /-- The name of the operand, which must be given; none where there is no operand. -/
  operand : Option Text

/-- A value, or a value that is asked for and held back. -/
inductive Supplied (α : Type) where
  | value (given : α)
  | withheld
  deriving DecidableEq, Repr

/-- The value, unless it is held back. -/
def Supplied.get? {α : Type} : Supplied α → Option α
  | value given => some given
  | withheld => none

/-- What an option was given. -/
inductive GivenValue where
  | flag
  | text (value : Supplied Text)
  | integer (value : Supplied Int)
  deriving DecidableEq, Repr

/-- Why a command line is not accepted. -/
inductive Refusal where
  | helpWanted
  | ambiguous (word : Text) (names : List Text)
  | valueMissing (option : List Text)
  | valueUnwanted (option : List Text) (value : Text)
  | notInteger (option : List Text) (value : Text)
  | operandMissing (name : Text)
  | unrecognized (words : List Text)
  deriving DecidableEq, Repr

/-- The words for a refusal. -/
def Refusal.message : Refusal → Text
  | helpWanted => []
  | ambiguous word names =>
    "ambiguous option: " ++ word ++ " could match " ++ joinWith ", " names
  | valueMissing option => "argument " ++ joinWith ['/'] option ++ ": expected one argument"
  | valueUnwanted option value =>
    "argument " ++ joinWith ['/'] option ++ ": ignored explicit argument " ++ quoted value
  | notInteger option value =>
    "argument " ++ joinWith ['/'] option ++ ": invalid int value: " ++ quoted value
  | operandMissing name => "the following arguments are required: " ++ name
  | unrecognized words => "unrecognized arguments: " ++ joinWith [' '] words

/-- The word that ends the options. -/
def twoDashes : Text := ['-', '-']

/-- A word of the command line, told what it is. An option may have a value attached to it in the
same word. -/
inductive Word (ι : Type) where
  | value (text : Text)
  | separator
  | unknownOption (text : Text)
  | option (spec : OptionSpec ι) (name : Text) (attached : Option Text)

namespace Word

variable {ι : Type}

/-- The word as it was written; an option is never left over. -/
def written : Word ι → Text
  | value text => text
  | separator => twoDashes
  | unknownOption text => text
  | option _ name _ => name

/-- Whether the word is an option, known or not. -/
def isOption : Word ι → Bool
  | value _ => false
  | separator => false
  | unknownOption _ => true
  | option _ _ _ => true

end Word

namespace Usage

variable {ι : Type}

/-- Every name of an option with its option, in order. -/
def named (usage : Usage ι) : List (Text × OptionSpec ι) :=
  usage.options.flatMap fun spec => spec.names.map (·, spec)

/-- The parts of a word before and after its first equals sign. -/
def splitAtEquals (word : Text) : Text × Option Text :=
  match word.dropWhile (· != CodePoint.char '=') with
  | [] => (word, none)
  | _ :: value => (word.takeWhile (· != CodePoint.char '='), some value)

/-- A minus sign with digits after it, among them a point at most: such a word is a value. One line
feed at the end is passed over. -/
def looksNegative (word : Text) : Bool :=
  match word with
  | '-' :: number =>
    let number := if number.getLast? == some '\n' then number.dropLast else number
    let fraction := number.dropWhile isDecimalDigit
    match fraction with
    | [] => !number.isEmpty
    | '.' :: digits => !digits.isEmpty && digits.all isDecimalDigit
    | _ => false
  | _ => false

/-- The options that a word may be short for, by name. -/
def shortFor (usage : Usage ι) (word : Text) : List (Text × OptionSpec ι × Option Text) :=
  if twoDashes.isPrefixOf word then
    let (start, value) := splitAtEquals word
    usage.named.filterMap fun (name, spec) =>
      if start.isPrefixOf name then some (name, spec, value) else none
  else
    usage.named.filterMap fun (name, spec) =>
      if name = word.take 2 then some (name, spec, some (word.drop 2))
      else if word.isPrefixOf name then some (name, spec, none)
      else none

/-- Tells what a word is by its parts: it is no name of an option in full. -/
def readPartial (usage : Usage ι) (word : Text) : Except Refusal (Word ι) :=
  let (start, value) := splitAtEquals word
  match value, usage.named.lookup start with
  | some value, some spec => .ok (.option spec start (some value))
  | _, _ =>
    match usage.shortFor word with
    | [(name, spec, attached)] => .ok (.option spec name attached)
    | [] =>
      if looksNegative word || word.contains ' ' then .ok (.value word)
      else .ok (.unknownOption word)
    | several => .error (.ambiguous word (several.map Prod.fst))

/-- Tells what a word is. -/
def readWord (usage : Usage ι) (word : Text) : Except Refusal (Word ι) :=
  if word.head? != some '-' then .ok (.value word)
  else match usage.named.lookup word with
    | some spec => .ok (.option spec word none)
    | none => if word.length = 1 then .ok (.value word) else usage.readPartial word

/-- Tells what the words are; all that follow two dashes are values. -/
def readWords (usage : Usage ι) : List Text → Except Refusal (List (Word ι))
  | [] => .ok []
  | word :: rest =>
    if word = twoDashes then .ok (.separator :: rest.map .value)
    else match usage.readWord word with
      | .error refusal => .error refusal
      | .ok read => (usage.readWords rest).map (read :: ·)

end Usage

/-- What a command line gives. -/
structure Given (ι : Type) where
  operand : Option Text
  options : List (ι × GivenValue)
  /-- Words that nothing takes. -/
  leftOver : List Text

namespace Given

variable {ι : Type}

/-- Nothing is given. -/
def nothing : Given ι := ⟨none, [], []⟩

/-- Puts an option first. -/
def withOption (id : ι) (value : GivenValue) (given : Given ι) : Given ι :=
  { given with options := (id, value) :: given.options }

/-- Puts a word that nothing takes first. -/
def withLeftOver (word : Text) (given : Given ι) : Given ι :=
  { given with leftOver := word :: given.leftOver }

/-- Takes the words after the last option: the operand, if it is still wanted, with the separator
before or after it; the others are left over. -/
def ofTail (wanted : Bool) (words : List (Word ι)) : Given ι :=
  match wanted, words with
  | true, .separator :: .value operand :: rest => ⟨some operand, [], rest.map Word.written⟩
  | true, .value operand :: .separator :: rest => ⟨some operand, [], rest.map Word.written⟩
  | true, .value operand :: rest => ⟨some operand, [], rest.map Word.written⟩
  | _, words => ⟨none, [], words.map Word.written⟩

/-- What comes of a value attached to an option that asks for help. In a word with one dash, the
letters after the first are options themselves; one that is none ends them as a value. -/
def helpWith (names : List Text) : Text → Refusal
  | [] => .valueUnwanted names []
  | c :: rest =>
    if names.contains ['-', c] then
      if rest.isEmpty then .helpWanted else helpWith names rest
    else .valueUnwanted names (c :: rest)

/-- The value of an option that takes one. Two dashes by themselves hold the value back. -/
def valueOf (spec : OptionSpec ι) (value : Text) : Except Refusal GivenValue :=
  let withheld := value = twoDashes
  if spec.form = .integer then
    if withheld then .ok (.integer .withheld)
    else match integer? value with
      | some n => .ok (.integer (.value n))
      | none => .error (.notInteger spec.names value)
  else .ok (.text (if withheld then .withheld else .value value))

/-- What comes of an option that takes no value but has one attached. -/
def unwanted (spec : OptionSpec ι) (name value : Text) : Refusal :=
  if twoDashes.isPrefixOf name || spec.form != .help then .valueUnwanted spec.names value
  else helpWith spec.names value

/-- Takes the words in order; `wanted` says whether the operand is still to come. -/
def ofWords (wanted : Bool) : List (Word ι) → Except Refusal (Given ι)
  | [] => .ok nothing
  | word :: rest =>
    if !(word :: rest).any Word.isOption then .ok (ofTail wanted (word :: rest))
    else match word with
      | .value text =>
        if wanted then (ofWords false rest).map fun given => { given with operand := some text }
        else (ofWords wanted rest).map (withLeftOver text)
      | .separator => (ofWords wanted rest).map (withLeftOver twoDashes)
      | .unknownOption text => (ofWords wanted rest).map (withLeftOver text)
      | .option spec name (some attached) =>
        if spec.form = .help || spec.form = .flag then .error (unwanted spec name attached)
        else match valueOf spec attached with
          | .error refusal => .error refusal
          | .ok value => (ofWords wanted rest).map (withOption spec.id value)
      | .option spec _ none =>
        if spec.form = .help then .error .helpWanted
        else if spec.form = .flag then (ofWords wanted rest).map (withOption spec.id .flag)
        else match rest with
          | .value text :: rest => match valueOf spec text with
            | .error refusal => .error refusal
            | .ok value => (ofWords wanted rest).map (withOption spec.id value)
          | _ => .error (.valueMissing spec.names)

/-- Reads a command line. The operand must be there, and no word may be left over. -/
def parse (usage : Usage ι) (words : List Text) : Except Refusal (Given ι) :=
  match usage.readWords words with
  | .error refusal => .error refusal
  | .ok read => match ofWords usage.operand.isSome read with
    | .error refusal => .error refusal
    | .ok given => match usage.operand, given.operand with
      | some name, none => .error (.operandMissing name)
      | _, _ => if given.leftOver.isEmpty then .ok given else .error (.unrecognized given.leftOver)

end Given

end ApexComments
