import AnySome.CommandLine.Arguments

/-!
# Help

What the program says about its own command line.
-/

namespace AnySome.Usage

/-- The name of the program. -/
def programName : String := "sam"

/-- The version line. -/
def version : String := programName ++ " 0.1.0"

/-- The help text. -/
def help : String :=
  String.intercalate "\n" [
    "Adds explicit any / some qualifiers to protocol-typed Swift declarations",
    "",
    "Usage: " ++ programName ++ " [OPTIONS] <PROJECT_PATH>",
    "",
    "Arguments:",
    "  <PROJECT_PATH>  Root folder of the project to migrate",
    "",
    "Options:",
    "  -i, --ignore-folders <NAME>    Folder names to skip, separated by commas",
    "  -p, --policy <POLICY>          strict prefers some where it is legal, light always uses any",
    "      --conservative             Never change a type that already carries any or some",
    "      --resolution <RESOLUTION>  How protocol names are recognised: registry, heuristic or combined",
    "  -c, --config <FILE>            Config file, by default sam.json in the project root",
    "      --dry-run                  Report what would change without writing any file",
    "  -j, --jobs <N>                 Number of worker threads",
    "  -v, --verbose                  Log progress at info level",
    "  -h, --help                     Print help",
    "  -V, --version                  Print version"]

/-- A mistake on the command line in words. -/
def complaint : UsageError → String
  | .missingProject => "the following required arguments were not provided: <PROJECT_PATH>"
  | .unknownArgument => "unexpected argument found"
  | .missingValue => "a value is required but none was supplied"
  | .malformedValue => "invalid value"
  | .repeated => "an argument cannot be used multiple times"
  | .unneededValue => "unexpected value found; no more were expected"
  | .helpRequested => help
  | .versionRequested => version

end AnySome.Usage
