/-!
# Faults

The conditions under which an operation has no answer at all. They are not errors of a program:
the first needs something to be counted beyond four billion, the others need an operation to be used
where it makes no sense.
-/

namespace ProcLang

/-- Why an operation has no answer. -/
inductive Fault where
  /-- A count does not fit in 32 bits: a line, a column, how deep comments are nested, or the number
  of a name. -/
  | overflow
  /-- An instruction was to be added and there was no place chosen for it. -/
  | noInsertionPoint
  /-- A place for instructions does not exist. -/
  | danglingCursor
  /-- A scope was to be closed and none was open. -/
  | noOpenScope
deriving DecidableEq, Inhabited

end ProcLang
