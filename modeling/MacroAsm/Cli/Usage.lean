import MacroAsm.Cli.Flag

/-!
# Usage

The flags of every command, and the usage texts.
-/

namespace MacroAsm

namespace Cli

/-- The switch that asks for the usage. -/
def helpFlag : Flag := ⟨"h", .switch, "print usage"⟩

/-- The flag of the file of an instruction set. -/
def tableFlag : Flag :=
  ⟨"table", .value "string",
    "instruction descriptor TOML file. Defaults to the built-in S1C88 table."⟩

/-- The flags of the command that assembles. -/
def assembleFlags : List Flag :=
  [helpFlag,
    ⟨"D", .value "value",
      "NAME[=VALUE] symbol to define in every file. VALUE defaults to 1. " ++
        "This may be specified multiple times."⟩,
    ⟨"I", .value "value",
      "directory to search for included files. This may be specified multiple times."⟩,
    tableFlag,
    ⟨"config", .value "string", "path to a c88as.toml configuration file"⟩,
    ⟨"v", .switch, "print MSG output"⟩,
    ⟨"Werror", .switch, "treat warnings as errors"⟩,
    ⟨"d", .value "string", "write the included files as make dependencies to this path"⟩]

/-- The flags of the command that shows instructions. -/
def tableFlags : List Flag :=
  [helpFlag, ⟨"i", .switch, "read mnemonics from an interactive prompt"⟩, tableFlag]

/-- The first lines of every usage text. -/
def banner : Text := "c88as CLI\n\nUsage:\n  c88as "

/-- The usage of the program. -/
def usage : Text :=
  banner ++ "<command>\n\nCommands:\n  assemble\tAssembles S1C88 token files\n" ++
    "  table\t\tPrints the instruction forms of mnemonics\n" ++
    "  version\tDisplays the version of c88as CLI\n"

/-- The usage of the command that assembles. -/
def assembleUsage : Text :=
  banner ++ "assemble <options> <path to token file>...\n\nOptions:\n" ++
    Flag.describeAll assembleFlags

/-- The usage of the command that shows instructions. -/
def tableUsage : Text :=
  banner ++ "table <options> [mnemonic]...\n\nOptions:\n" ++ Flag.describeAll tableFlags

/-- The version of the program. -/
def version : Text := "dev"

end Cli

end MacroAsm
