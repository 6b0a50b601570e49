import Ambient.Path
import Ambient.Render

/-! The arguments of the command line. Options and operands may be mixed; two dashes end the
options. An option that takes a value has it attached or in the next argument, which then must not
look like an option. Each option is given once at most, where the options for all commands may
stand before the command as well as after it. -/
namespace Ambient.CommandLine

/-- What to do: translate some files, redo the outputs that exist, or show the options in force. -/
inductive Command where
  | generate (files : List Path) (project : Option Path) (mode : RenderMode) (print : Bool)
  | refresh (project : Option Path)
  | options (project : Option Path)
  deriving DecidableEq, Repr

structure Invocation where
  config : Option Path
  command : Command
  deriving DecidableEq, Repr

/-- What the arguments ask for; misused ones ask for nothing. -/
inductive Request where
  | run (invocation : Invocation)
  | help
  | version
  | misuse
  deriving DecidableEq, Repr

inductive CommandName where
  | generate
  | refresh
  | options
  deriving DecidableEq, Repr

def commandNames : List (String × CommandName) :=
  [("generate", .generate), ("refresh", .refresh), ("options", .options)]

inductive Switch where
  | debug
  | config
  | project
  | mode
  | print
  | help
  | version
  deriving DecidableEq, Repr

def Switch.takesValue : Switch → Bool
  | config | project | mode => true
  | _ => false

/-- Whether a switch is known before the command or after it. -/
def Switch.allowed : Option CommandName → Switch → Bool
  | _, debug | _, config | _, help => true
  | none, version => true
  | some _, project => true
  | some .generate, mode | some .generate, print => true
  | _, _ => false

def longNames : List (String × Switch) :=
  [("debug", .debug), ("config", .config), ("project", .project), ("mode", .mode),
   ("stdout", .print), ("help", .help), ("version", .version)]

def shortNames : List (Char × Switch) :=
  [('d', .debug), ('p', .project), ('h', .help), ('V', .version)]

def named? {α : Type} [DecidableEq α] {β : Type} (names : List (α × β))
    (name : α) : Option β :=
  (names.find? (·.1 = name)).map (·.2)

def modes : List (String × RenderMode) :=
  [("full", .full), ("enums-only", .enumsOnly), ("without-enums", .withoutEnums)]

/-- What has been read before the command, or after it. -/
structure Draft where
  seen : List Switch
  config : Option Path
  project : Option Path
  mode : RenderMode
  operands : List Path

def Draft.empty : Draft := ⟨[], none, none, .full, []⟩

/-- One argument, or a part of it: a switch with an attached value if there is one. -/
inductive Part where
  | switch (s : Switch) (value : Option String)
  | unknown

/-- An argument: switches, the end of all switches, or an operand. -/
inductive Argument where
  | parts (parts : List Part)
  | endOfSwitches
  | operand (text : String)

/-- A value behind an equals sign. -/
def attached? : List Char → Option String
  | '=' :: value => some (String.ofList value)
  | _ => none

def longPart (name : Option CommandName) (cs : List Char) : Part :=
  let spelled := cs.takeWhile (· != '=')
  match named? longNames (String.ofList spelled) with
  | some s =>
    if s.allowed name then .switch s (attached? (cs.drop spelled.length)) else .unknown
  | none => .unknown

/-- Single letters, the last of which may take the rest as its value. -/
def shortParts (name : Option CommandName) : List Char → List Part
  | [] => []
  | c :: r =>
    match named? shortNames c with
    | none => [.unknown]
    | some s =>
      if !s.allowed name then [.unknown]
      else if s.takesValue then
        [.switch s (if r = [] then none else some ((attached? r).getD (String.ofList r)))]
      else .switch s none :: shortParts name r

def Argument.read (name : Option CommandName) (arg : String) : Argument :=
  match arg.toList with
  | ['-', '-'] => .endOfSwitches
  | '-' :: '-' :: long => .parts [longPart name long]
  | '-' :: c :: r => .parts (shortParts name (c :: r))
  | _ => .operand arg

/-- How reading ends before its end. -/
inductive Stop where
  | help
  | version
  | misuse

def Stop.request : Stop → Request
  | help => .help
  | version => .version
  | misuse => .misuse

namespace Draft

/-- A path is not empty. -/
def path (value : String) : Except Stop Path :=
  if value.isEmpty then .error .misuse else .ok ⟨value⟩

/-- Notes a switch with its value. -/
def setValue (d : Draft) (s : Switch) (value : String) : Except Stop Draft :=
  if d.seen.contains s then .error .misuse
  else
    let d := { d with seen := s :: d.seen }
    match s with
    | .config => (path value).map fun p => { d with config := some p }
    | .project => (path value).map fun p => { d with project := some p }
    | .mode =>
      match named? modes value with
      | some mode => .ok { d with mode }
      | none => .error .misuse
    | _ => .error .misuse

/-- Notes a switch without a value. -/
def set (d : Draft) (s : Switch) : Except Stop Draft :=
  match s with
  | .help => .error .help
  | .version => .error .version
  | s => if d.seen.contains s then .error .misuse else .ok { d with seen := s :: d.seen }

/-- Notes the parts of an argument; the last may be a switch that still wants its value. -/
def setParts (d : Draft) : List Part → Except Stop (Draft × Option Switch)
  | [] => .ok (d, none)
  | .unknown :: _ => .error .misuse
  | .switch s value :: more =>
    match s.takesValue, value with
    | true, some value => (d.setValue s value).bind fun d => d.setParts more
    | true, none => .ok (d, some s)
    | false, some _ => .error .misuse
    | false, none => (d.set s).bind fun d => d.setParts more

def addOperand (d : Draft) (name : CommandName) (text : String) : Except Stop Draft :=
  match name with
  | .generate => (path text).map fun p => { d with operands := d.operands ++ [p] }
  | _ => .error .misuse

end Draft

/-- The arguments after the two dashes. -/
def readOperands (name : CommandName) (d : Draft) (args : List String) : Except Stop Draft :=
  args.foldlM (fun d text => d.addOperand name text) d

/-- The arguments after a command. `wanted` is a switch whose value comes next. -/
def readAfter (name : CommandName) (d : Draft) (wanted : Option Switch) :
    List String → Except Stop Draft
  | [] => if wanted.isSome then .error .misuse else .ok d
  | arg :: args =>
    match wanted, Argument.read (some name) arg with
    | some s, .operand value =>
      (d.setValue s value).bind fun d => readAfter name d none args
    | some _, _ => .error .misuse
    | none, .operand text => (d.addOperand name text).bind fun d => readAfter name d none args
    | none, .endOfSwitches => readOperands name d args
    | none, .parts parts =>
      (d.setParts parts).bind fun (d, wanted) => readAfter name d wanted args

/-- The command with what was read before it and after it; a file given later counts. -/
def invocation (name : CommandName) (before after : Draft) : Except Stop Invocation :=
  let config := after.config.or before.config
  match name with
  | .generate =>
    if after.operands.isEmpty then .error .misuse
    else
      .ok
        ⟨config, .generate after.operands after.project after.mode (after.seen.contains .print)⟩
  | .refresh => .ok ⟨config, .refresh after.project⟩
  | .options => .ok ⟨config, .options after.project⟩

/-- Help on a command, or on all. -/
def helpOn (args : List String) : Stop :=
  match args with
  | [] | ["help"] => .help
  | [name] => if (named? commandNames name).isSome then .help else .misuse
  | _ => .misuse

/-- All arguments, up to the command and from it on. -/
def readBefore (d : Draft) (wanted : Option Switch) : List String → Except Stop Invocation
  | [] => .error .misuse
  | arg :: args =>
    match wanted, Argument.read none arg with
    | some s, .operand value => (d.setValue s value).bind fun d => readBefore d none args
    | some _, _ => .error .misuse
    | none, .operand "help" => .error (helpOn args)
    | none, .operand text =>
      match named? commandNames text with
      | some name => (readAfter name .empty none args).bind (invocation name d)
      | none => .error .misuse
    | none, .endOfSwitches => .error .misuse
    | none, .parts parts => (d.setParts parts).bind fun (d, wanted) => readBefore d wanted args

def Request.ofArguments (args : List String) : Request :=
  match readBefore .empty none args with
  | .ok invocation => .run invocation
  | .error stop => stop.request

end Ambient.CommandLine
