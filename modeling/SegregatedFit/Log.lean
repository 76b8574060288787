/-!
Log levels, the filter that lets records through, and the line in which a record is written.
-/

namespace SegregatedFit

-- From the most to the least urgent.
inductive Level where
  | error
  | warn
  | info
  | debug
  | trace
deriving DecidableEq, Repr, Inhabited

namespace Level

def rank : Level → Nat
  | error => 1
  | warn => 2
  | info => 3
  | debug => 4
  | trace => 5

def name : Level → String
  | error => "ERROR"
  | warn => "WARN"
  | info => "INFO"
  | debug => "DEBUG"
  | trace => "TRACE"

end Level

-- The least urgent level that is let through; none at all when it is `off`.
inductive LevelFilter where
  | off
  | upTo (level : Level)
deriving DecidableEq, Repr, Inhabited

def LevelFilter.admits : LevelFilter → Level → Bool
  | off, _ => false
  | upTo max, level => level.rank ≤ max.rank

structure Record where
  level : Level
  target : String
  message : String
deriving DecidableEq, Repr, Inhabited

namespace Record

def line (r : Record) : String := s!"[{r.level.name}] {r.target}: {r.message}"

-- What a logger with the given filter writes of one record.
def written (filter : LevelFilter) (r : Record) : String :=
  if filter.admits r.level then r.line ++ "\n" else ""

end Record

end SegregatedFit
