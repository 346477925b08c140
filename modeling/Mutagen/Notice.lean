/-!
# Notices

What an operation reports beside its result. A log holds notices in the order of reporting.
-/

namespace Mutagen

inductive Level
  | info
  | error
  deriving BEq, DecidableEq, Repr

structure Notice where
  level : Level
  message : String
  deriving BEq, DecidableEq, Repr

abbrev Log := List Notice

end Mutagen
