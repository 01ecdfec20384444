import Fsfuse.Native.Config

/-!
# The command line

`settings_parse_command_line` of `src/fsfuse.c`, which makes the options a layer of the
configuration. An argument vector is what `getopt_long` finds in it: its options in order,
and the operands, which are moved behind them.
-/

namespace Fsfuse.Native.Config

/-- `start_action_t`. -/
inductive StartAction
  | mount
  | version
  | usage
deriving Repr, DecidableEq

/-! ### Arguments -/

/-- An option of an argument vector. A long one may have been abbreviated. -/
inductive Opt
  | short (c : Char)
  | long (name : String)
  /-- One whose argument is missing or not expected, or an abbreviation of several. -/
  | malformed
deriving Repr, DecidableEq

/-- An argument vector, without `argv[0]`. -/
structure ArgVector where
  options : List Opt
  operands : List (List UInt8)

/-- The short options. A colon is for an argument. -/
def shortOptions : String := "c:dfspt:h?vo"

/-- The long options, with what is reported of them. -/
def longOptions : List (String × Char) :=
  [("config", 'c'), ("debug", 'd'), ("foreground", 'f'), ("singlethreaded", 's'),
   ("trace", 't'), ("help", 'h'), ("version", 'v')]

/-- What `getopt_long` reports of an option. -/
def getoptLong : Opt → Char
  | .short c => if c ≠ ':' ∧ c ∈ shortOptions.toList then c else '?'
  | .long name => (longOptions.lookup name).getD '?'
  | .malformed => '?'

/-! ### Options -/

/-- The locals of the loop over the options. -/
structure Locals where
  rc : StartAction
  procDebug : Int
  procDebugSet : Int
  procFg : Int
  procFgSet : Int
  procSinglethread : Int
  procSinglethreadSet : Int
deriving Repr, DecidableEq

/-- The locals before the loop. Three are not initialised, and have any value. -/
def Locals.init (debug fg singlethread : Int) : Locals where
  rc := .mount
  procDebug := debug
  procDebugSet := 0
  procFg := fg
  procFgSet := 0
  procSinglethread := singlethread
  procSinglethreadSet := 0

/-- One option, by what is reported of it. -/
def Locals.parseOption (l : Locals) : Char → Except Fault Locals
  | 'c' => .ok l
  -- falls through to the foreground
  | 'd' => .ok { l with procDebug := 1, procDebugSet := 1, procFg := 1, procFgSet := 1 }
  | 'f' => .ok { l with procFg := 1, procFgSet := 1 }
  | 's' => .ok { l with procSinglethread := 1, procSinglethreadSet := 1 }
  | 't' => .ok l
  | 'v' => .ok { l with rc := .version }
  | 'h' | '?' => .ok { l with rc := .usage }
  | 'o' => .ok l
  | _ => .error .assertion

/-- The call of `config_manager_add_from_cmdline`, in the order of its arguments. -/
def Locals.addFromCmdline (l : Locals) : Cmdline :=
  ⟨l.procDebugSet, l.procDebug, l.procFgSet, l.procFg, l.procSinglethreadSet,
    l.procSinglethread⟩

/-! ### The mount point -/

/-- `mountpoint_t`. -/
structure Mountpoint where
  real : Option (List UInt8)
  raw : Option (List UInt8)
  error : Option (List UInt8)
deriving Repr, DecidableEq

/-- The second operand is where to mount; a path that `realpath` fails on has an error. -/
def Mountpoint.ofOperands (realpath : List UInt8 → Except (List UInt8) (List UInt8))
    (mountpoint : Mountpoint) : List (List UInt8) → Mountpoint
  | _ :: raw :: _ =>
    match realpath raw with
    | .ok real => { mountpoint with raw := some raw, real := some real }
    | .error error => ⟨none, some raw, some error⟩
  | _ => mountpoint

/-- What `settings_parse_command_line` returns and leaves. -/
structure Settings where
  rc : StartAction
  layers : List Layer
  mountpoint : Mountpoint

/-- `settings_parse_command_line`, with the locals it starts with. -/
def settingsParseCommandLine (realpath : List UInt8 → Except (List UInt8) (List UInt8))
    (init : Locals) (layers : List Layer) (mountpoint : Mountpoint) (argv : ArgVector) :
    Except Fault Settings := do
  let l ← (argv.options.map getoptLong).foldlM Locals.parseOption init
  return ⟨l.rc, layers ++ [.cmdline l.addFromCmdline],
    mountpoint.ofOperands realpath argv.operands⟩

end Fsfuse.Native.Config
