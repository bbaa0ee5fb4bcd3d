/-!
Records for a log.
-/
namespace RegexMachine

inductive LogLevel where
  | debug | trace
deriving DecidableEq, Repr

structure LogRecord where
  level : LogLevel
  text : String
deriving DecidableEq, Repr

end RegexMachine
