import WireScan.Intake

/-!
# Options of the command line

The command line names at most one file and sets up to three sizes, each as `--NAME VALUE` or
`--NAME=VALUE` and each at most once. An argument `--` makes every later argument a file. A size
is a run of decimal digits, with or without a plus before it, that is an index.
-/
namespace WireScan

/-- A size that can be set. -/
inductive Setting
  /-- The room of the buffer at first. -/
  | initialSize
  /-- The limit of the buffer. -/
  | maxSize
  /-- The bytes of one read. -/
  | chunkSize
deriving DecidableEq, Repr

/-- The name of a setting. -/
def Setting.name : Setting → String
  | initialSize => "--initial-size"
  | maxSize => "--max-size"
  | chunkSize => "--chunk-size"

/-- The setting of a name. -/
def Setting.ofName? (name : String) : Option Setting :=
  [initialSize, maxSize, chunkSize].find? (·.name == name)

/-- Why arguments are refused. -/
inductive UsageFault
  /-- There is no such option. -/
  | unknown (argument : String)
  /-- An option was given twice. -/
  | repeated (setting : Setting)
  /-- An option was given no value. -/
  | valueless (setting : Setting)
  /-- The value of an option is no size. -/
  | badSize (setting : Setting) (value : String)
  /-- A second file was named. -/
  | extraFile (argument : String)
  /-- A file was named by nothing. -/
  | namelessFile
deriving DecidableEq, Repr

/-- The wording of a usage fault. -/
def UsageFault.message : UsageFault → String
  | unknown argument => "unexpected argument '" ++ argument ++ "' found"
  | repeated setting => "the argument '" ++ setting.name ++ "' cannot be used multiple times"
  | valueless setting => "a value is required for '" ++ setting.name ++ "' but none was supplied"
  | badSize setting value => "invalid value '" ++ value ++ "' for '" ++ setting.name ++ "'"
  | extraFile argument => "unexpected argument '" ++ argument ++ "' found"
  | namelessFile => "a value is required for '[FILE]' but none was supplied"

/-- What arguments have set so far. -/
structure Options where
  /-- The file to read, or none for the standard input. -/
  file : Option String
  /-- The sizes that were set, the latest first. -/
  sizes : List (Setting × Nat)
deriving DecidableEq, Repr

namespace Options

/-- No argument was given. -/
def empty : Options := ⟨none, []⟩

/-- The value of a setting, set or not. -/
def size (setting : Setting) (options : Options) : Nat :=
  (options.sizes.lookup setting).getD <|
    match setting with
    | .initialSize => 64
    | .maxSize => 64 * 1024
    | .chunkSize => 16

/-- The buffer that the options ask for, where a store can have its room. -/
def buffer? (options : Options) : Option Growing :=
  Growing.new? (options.size .initialSize) (options.size .maxSize)

/-- The bytes of one read, at least one, where a store can have room for them. -/
def chunk? (options : Options) : Option Nat :=
  let chunk := max 1 (options.size .chunkSize)
  if chunk ≤ Index.largestStore then some chunk else none

/-- The number that a text spells: an optional plus and decimal digits, at most the largest
index. -/
def number? (text : String) : Option Nat :=
  let digits := match text.toList with
    | '+' :: digits => digits
    | digits => digits
  if digits.isEmpty ∨ ¬digits.all Char.isDigit then none
  else
    let value := digits.foldl (fun value digit => 10 * value + (digit.toNat - '0'.toNat)) 0
    if value ≤ Index.largest then some value else none

/-- Set a size to the number that a text spells. -/
def set (setting : Setting) (text : String) (options : Options) : Except UsageFault Options :=
  if (options.sizes.lookup setting).isSome then .error (.repeated setting)
  else match number? text with
    | some value => .ok { options with sizes := (setting, value) :: options.sizes }
    | none => .error (.badSize setting text)

/-- Name the file to read. -/
def addFile (options : Options) (argument : String) : Except UsageFault Options :=
  if argument.isEmpty then .error .namelessFile
  else match options.file with
    | none => .ok { options with file := some argument }
    | some _ => .error (.extraFile argument)

/-- An argument that is meant as an option; a dash alone is not. -/
def isOption (argument : String) : Bool :=
  match argument.toList with
  | '-' :: _ :: _ => true
  | _ => false

/-- An option split at its first equals sign into its name and its value, if it has one. -/
def split (argument : String) : String × Option String :=
  let chars := argument.toList
  match chars.dropWhile (· != '=') with
  | [] => (argument, none)
  | _ :: value => (String.ofList (chars.takeWhile (· != '=')), some (String.ofList value))

/-- The options that arguments set beside those set so far. -/
def read (options : Options) : List String → Except UsageFault Options
  | [] => .ok options
  | argument :: rest =>
    if argument = "--" then rest.foldlM addFile options
    else if isOption argument then
      match Setting.ofName? (split argument).1, (split argument).2 with
      | none, _ => .error (.unknown argument)
      | some setting, some value =>
        match options.set setting value with
        | .ok next => next.read rest
        | .error fault => .error fault
      | some setting, none =>
        match rest with
        | [] => .error (.valueless setting)
        | value :: rest =>
          if isOption value then .error (.valueless setting)
          else match options.set setting value with
            | .ok next => next.read rest
            | .error fault => .error fault
    else match options.addFile argument with
      | .ok next => next.read rest
      | .error fault => .error fault

/-- The options that arguments set. -/
def ofArguments (arguments : List String) : Except UsageFault Options := empty.read arguments

/-- Where the input of these options comes from. -/
def source (options : Options) : Intake.Source :=
  if options.file.isSome then .file else .stream

/-- What the options name among files, or else the standard input. -/
def opened (options : Options) (files : Files) (input : List UInt8) : Except Refusal Node :=
  match options.file with
  | none => .ok (.bytes input)
  | some path => files path

/-- The verdict on what reading gives, the pieces of an input or a refusal. Before the first read
there must be stores for the buffer and for one piece. -/
def verdictOn (options : Options) (given : Except Refusal (List (List UInt8))) : Verdict :=
  match options.buffer?, options.chunk?, given with
  | some buffer, some _, .ok pieces => Intake.run pieces buffer .start
  | some _, some _, .error refusal => .unreadable refusal
  | _, _, _ => .oversized

/-- The verdict on what the options name, in the pieces in which they read it. -/
def verdict (options : Options) (files : Files) (input : List UInt8) : Verdict :=
  match options.opened files input with
  | .error refusal => .unreadable refusal
  | .ok node =>
    options.verdictOn (options.source.pieces (options.size .chunkSize) 0 <$> node.contents)

end Options

end WireScan
