import ArrayLang.Eval.CallStack
import ArrayLang.Registry.Basic
import ArrayLang.Source.Tree
import ArrayLang.Value.Text

/-!
# What an evaluation is given

The arenas of all programs and closures, the registry with its names, and the numeric tower stay as
they are while expressions are evaluated.
-/

namespace ArrayLang

/-- The unchanging surroundings of an evaluation. -/
structure Context where
  registry : Registry
  tower : Tower
  arenas : Array Arena

namespace Context

def names (c : Context) : Interner := c.registry.names

def arena? (c : Context) (a : ArenaId) : Option Arena := c.arenas[a.index]?

/-- The source of a closure, if it can be read. -/
def printClosure? (c : Context) (f : Closure) : Option String := do
  (← c.arena? f.arena).printClosure c.names f.body |>.toOption

/-- How names and closures are written. -/
def glossary (c : Context) : Glossary where
  name := c.names.lookup
  closure f := (c.printClosure? f).getD ""

def render (c : Context) (v : Value) : String := v.render c.glossary

end Context

end ArrayLang
