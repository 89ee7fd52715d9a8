import ByteEmbed.Text.Basic

/-!
# Usage of the command

The values that the command takes, what can be wrong with its arguments, and
the texts that it prints about itself.
-/

namespace ByteEmbed
namespace CommandLine

/-- What a value is for.  The input has no flag. -/
inductive Role where
  | input
  | output
  | name
  deriving DecidableEq, Repr

/-- How usage errors name the values of a role. -/
def Role.display : Role → String
  | .input => "<INPUT>"
  | .output => "--output <OUTPUT>"
  | .name => "--name <NAME>"

/-- A flag that asks for information and takes no value. -/
inductive Inquiry where
  | help
  | version
  deriving DecidableEq, Repr

/-- How usage errors name an inquiry. -/
def Inquiry.display : Inquiry → String
  | .help => "--help"
  | .version => "--version"

/-- What is wrong with the arguments of a command.  An unexpected argument is no
known flag, or a second input, and a value is required where it is absent, or empty
where it must not be. -/
inductive UsageError where
  | missingInput
  | unexpectedArgument (arg : Text)
  | valueRequired (role : Role)
  | repeated (role : Role)
  | unexpectedValue (inquiry : Inquiry) (value : Text)
  deriving DecidableEq, Repr

/-- The wording of a usage error. -/
def UsageError.message : UsageError → Text
  | .missingInput => "error: the following required arguments were not provided:".toList
  | .unexpectedArgument arg =>
      "error: unexpected argument '".toList ++ arg ++ "' found".toList
  | .valueRequired role =>
      ("error: a value is required for '" ++ role.display ++ "' but none was supplied").toList
  | .repeated role =>
      ("error: the argument '" ++ role.display ++ "' cannot be used multiple times").toList
  | .unexpectedValue inquiry value =>
      "error: unexpected value '".toList ++ value ++
        ("' for '" ++ inquiry.display ++ "' found; no more were expected").toList

/-- The name under which the command reports errors. -/
def commandName : String := "ctab"

/-- The version of the command. -/
def versionNumber : String := "0.1.0"

/-- How the command is used. -/
def helpText : String :=
  "Generate a C byte array declaration from a binary file, for embedding test fixtures.\n" ++
  "\n" ++
  "Usage: ctab [OPTIONS] <INPUT>\n" ++
  "\n" ++
  "Arguments:\n" ++
  "  <INPUT>  Path to the input binary file\n" ++
  "\n" ++
  "Options:\n" ++
  "  -o, --output <OUTPUT>  Path to the output C source file [default: <INPUT>.c]\n" ++
  "  -n, --name <NAME>      Identifier of the generated array [default: manifest_buf]\n" ++
  "  -h, --help             Print help\n" ++
  "  -V, --version          Print version\n"

/-- The answer to an inquiry. -/
def Inquiry.answer : Inquiry → String
  | .help => helpText
  | .version => commandName ++ " " ++ versionNumber ++ "\n"

end CommandLine
end ByteEmbed
