import Mutagen.Command.Instrument
import Mutagen.Command.Mutate

/-!
# Running the program

A run turns a command line and a file system into output, an exit code and a file system. The
exit code is 0 if all went well, 2 if the request makes no sense, and 3 if it could not be met.
-/

namespace Mutagen.Command

def operatorList : String := String.join (Registry.standard.names.map fun name => line ("  " ++ name))

def version : String := line "jsmutate 0.1.0"

def World.serve (w : World) : Request → Outcome
  | .mutate options => w.mutate options
  | .instrument options => w.instrument options
  | .operators => w.answer 0 operatorList ""
  | .version => w.answer 0 version ""

def World.run (w : World) (arguments : List String) : Outcome :=
  match request arguments with
  | .error e => w.answer 2 "" e.message
  | .ok r => w.serve r

end Mutagen.Command
