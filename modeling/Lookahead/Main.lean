import Lookahead.Command

set_option autoImplicit false

namespace Lookahead

def perform : Command.Effect → IO UInt32
  | .print text => do
      IO.print text
      return 0
  | .write path text => do
      try
        IO.FS.writeFile path text
        return 0
      catch e =>
        IO.eprintln ("failed to write the dump to " ++ path ++ ": " ++ toString e)
        return 1
  | .refuse message => do
      IO.eprint message
      return 2
  | .fail message => do
      IO.eprintln message
      return 1

end Lookahead

-- The exit code is 2 if the arguments are wrong, and 1 if the dump cannot be made or written.
def main (args : List String) : IO UInt32 :=
  Lookahead.perform (Lookahead.Command.respond args)
