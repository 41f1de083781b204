import SchemaLift.Console.Libraries

/-!
# Failures

A command that cannot do its work fails with a cause. The cause decides the exit code, the message
and the error object that is printed where JSON is asked for.
-/

namespace SchemaLift.Console

/-- What is wrong with the configuration. -/
inductive Misconfiguration where
  | unreadable (path : Path) (problem : Text)
  | unknownRule (rule : Rule.Unknown)
  | invalidPattern (pattern problem : Text)
  deriving DecidableEq, Repr

namespace Misconfiguration

def message : Misconfiguration → Text
  | unreadable path problem => "failed to parse ".toList ++ path ++ ": ".toList ++ problem
  | unknownRule rule => rule.message
  | invalidPattern pattern problem =>
    "invalid file_pattern '".toList ++ pattern ++ "': ".toList ++ problem

end Misconfiguration

inductive Failure where
  | inaccessible (path : Path) (error : AccessError)
  | misconfigured (cause : Misconfiguration)
  /-- Files are to be overwritten, and whoever was asked did not agree. -/
  | cancelled
  /-- A path is no file, and no directory with a file that matches the pattern. -/
  | noRubyFiles (path : Path)
  /-- Files are to be overwritten, and there is nobody to ask. -/
  | requiresForce
  /-- A check found files that are not up to date. -/
  | needsUpgrade (count : Nat)
  /-- Anything else, with its message. -/
  | other (message : Text)
  deriving DecidableEq, Repr

namespace Failure

def message : Failure → Text
  | inaccessible path error =>
    "IO error for ".toList ++ path ++ ": ".toList ++ error.message.toList
  | misconfigured cause => "configuration error: ".toList ++ cause.message
  | cancelled => "operation cancelled".toList
  | noRubyFiles path => "no Ruby files found in ".toList ++ path
  | requiresForce => "rewriting files requires --force in non-interactive mode".toList
  | needsUpgrade count => (toString count ++ " file(s) need upgrading").toList
  | other message => message

/-- The exit code: 2 for wrong settings or paths, 4 for files to upgrade, 1 for all else. -/
def exitCode : Failure → Nat
  | misconfigured _ | noRubyFiles _ => 2
  | needsUpgrade _ => 4
  | inaccessible _ _ | cancelled | requiresForce | other _ => 1

def toJson (f : Failure) : JsonValue :=
  .ofFields (match f with
    | inaccessible path error =>
      [("error", .ofString "io_error"), ("path", .string path),
        ("message", .ofString error.message)]
    | misconfigured cause =>
      [("error", .ofString "config_error"), ("message", .string cause.message)]
    | needsUpgrade count =>
      [("error", .ofString "needs_upgrade"), ("files", .number count),
        ("message", .string f.message)]
    | _ => [("error", .ofString "error"), ("message", .string f.message)])

end Failure

end SchemaLift.Console
