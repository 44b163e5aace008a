/-!
# Usage and help

What the two levels of the command line tell about themselves.
-/
namespace ParamLint.CommandLine

inductive Scope
  | program
  | check
deriving DecidableEq

namespace Scope

def name : Scope → String
  | program => "objparams"
  | check => "objparams check"

def usage : Scope → String
  | program => "usage: objparams [-h] \x7bcheck\x7d ...\n"
  | check =>
    "usage: objparams check [-h] [--config CONFIG] [--ignore-function NAME]\n" ++
    "                       [--ignore-method NAME] [--ignore-file GLOB]\n" ++
    "                       [--ignore-constructors | --no-ignore-constructors]\n" ++
    "                       [--ignore-single-param | --no-ignore-single-param]\n" ++
    "                       [--ignore-no-params | --no-ignore-no-params]\n" ++
    "                       [--ignore-test-files | --no-ignore-test-files]\n" ++
    "                       [--root ROOT] [--changed-since REV]\n" ++
    "                       [--format \x7btext,json\x7d] [--debug]\n" ++
    "                       [paths ...]\n"

def help : Scope → String
  | program =>
    usage program ++
    "\n" ++
    "Check that JavaScript/TypeScript functions take object parameters only.\n" ++
    "\n" ++
    "positional arguments:\n" ++
    "  \x7bcheck\x7d\n" ++
    "    check     Check files or directories\n" ++
    "\n" ++
    "options:\n" ++
    "  -h, --help  show this help message and exit\n" ++
    "\n" ++
    "Examples:\n" ++
    "  objparams check src\n" ++
    "  objparams check src --ignore-function legacyFunc --no-ignore-single-param\n" ++
    "  objparams check . --config objparams.json --format json\n" ++
    "  objparams check . --changed-since origin/main\n" ++
    "        \n"
  | check =>
    usage check ++
    "\n" ++
    "positional arguments:\n" ++
    "  paths                 Files or directories to check (default: current\n" ++
    "                        directory)\n" ++
    "\n" ++
    "options:\n" ++
    "  -h, --help            show this help message and exit\n" ++
    "  --config CONFIG       JSON file with rule options (camelCase keys)\n" ++
    "  --ignore-function NAME\n" ++
    "                        Function name to ignore (repeatable)\n" ++
    "  --ignore-method NAME  Method or property key to ignore, '#name' for private\n" ++
    "                        members (repeatable)\n" ++
    "  --ignore-file GLOB    Glob of files to ignore, e.g. '**/legacy/**'\n" ++
    "                        (repeatable)\n" ++
    "  --ignore-constructors, --no-ignore-constructors\n" ++
    "                        Ignore class constructors (default: on)\n" ++
    "  --ignore-single-param, --no-ignore-single-param\n" ++
    "                        Ignore functions with a single parameter (default: on)\n" ++
    "  --ignore-no-params, --no-ignore-no-params\n" ++
    "                        Ignore functions without parameters (default: on)\n" ++
    "  --ignore-test-files, --no-ignore-test-files\n" ++
    "                        Ignore *.test.* and *.spec.* files (default: on)\n" ++
    "  --root ROOT           Directory paths are reported relative to (default:\n" ++
    "                        current directory)\n" ++
    "  --changed-since REV   Only check files changed since this git revision\n" ++
    "  --format \x7btext,json\x7d  Output format (default: text)\n" ++
    "  --debug               Verbose logging and full tracebacks\n"

end Scope

end ParamLint.CommandLine
