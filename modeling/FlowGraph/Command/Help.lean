/-! What the command says about itself. -/
namespace FlowGraph.Command

def joined (lines : List String) : String := String.join (lines.map (· ++ "\n"))

def versionLine : String := "tacflow 0.1.0-dev"

def versionText : String := joined [versionLine]

/-- The head of both help texts. -/
def banner : List String :=
  [versionLine,
    "Fabian Schuiki <fschuiki@iis.ee.ethz.ch>",
    "Constructs the control flow graphs of methods.",
    "",
    "USAGE:",
    "    tacflow-cfg [FLAGS] [OPTIONS] [input]",
    ""]

/-- One line for each option. -/
def briefHelp : String := joined <| banner ++
  ["FLAGS:",
    "    -h, --help           Prints help information",
    "    -s, --no-parallel    Do not parallelize execution",
    "    -t, --time           Print execution time statistics",
    "    -V, --version        Prints version information",
    "    -v                   Increase message verbosity",
    "        --verify         Verify the integrity of every constructed graph",
    "",
    "OPTIONS:",
    "    -f, --format <format>    Format of the emitted graphs [default: dot]  [possible values: dot, text]",
    "    -o, --output <output>    File to write output to; stdout if omitted",
    "",
    "ARGS:",
    "    <input>    Assembly file to read methods from; stdin if omitted"]

/-- A paragraph for each option. -/
def detailedHelp : String := joined <| banner ++
  ["FLAGS:",
    "    -h, --help           ",
    "            Prints help information",
    "",
    "    -s, --no-parallel    ",
    "            Do not parallelize execution",
    "",
    "    -t, --time           ",
    "            Print execution time statistics",
    "",
    "    -V, --version        ",
    "            Prints version information",
    "",
    "    -v                   ",
    "            Increase message verbosity",
    "            ",
    "            This option can be specified multiple times to increase the level of verbosity in the output:",
    "            ",
    "            -v      Only print errors",
    "            -vv     Also print warnings",
    "            -vvv    Also print info messages",
    "            -vvvv   Also print debug messages",
    "            -vvvvv  Also print detailed tracing messages",
    "        --verify         ",
    "            Verify the integrity of every constructed graph",
    "",
    "",
    "OPTIONS:",
    "    -f, --format <format>    ",
    "            Format of the emitted graphs [default: dot]  [possible values: dot, text]",
    "",
    "    -o, --output <output>    ",
    "            File to write output to; stdout if omitted",
    "",
    "",
    "ARGS:",
    "    <input>    ",
    "            Assembly file to read methods from; stdin if omitted",
    ""]

def helpText (detailed : Bool) : String := if detailed then detailedHelp else briefHelp

end FlowGraph.Command
