import Valgen.Options
import Valgen.Path
/-!
# Compile.Context — where the compiler stands

The path of the node that is being compiled, and the choices that hold there.  Whether a node's own default is left out
concerns that node only: a step to a subschema ends it.
-/
namespace Valgen
namespace Compile

/-- **The place of a node and the choices that hold there.** -/
structure Context where
  path : Path
  dialect : Dialect
  applyDefaults : Bool
  /-- Whether the default of this very node is left out. -/
  suppressDefault : Bool := false
  /-- The id of the document, in a project. -/
  document : Option String := none
deriving DecidableEq, Repr

namespace Context

/-- **The root of a document**, of a project if an id is given. -/
def root (options : Options) (document : Option String) : Context where
  path := []
  dialect := options.dialect
  applyDefaults := options.applyDefaults
  document := document

def child (ctx : Context) (segment : Segment) : Context :=
  { ctx with path := ctx.path ++ [segment], suppressDefault := false }

/-- **Two steps down**: a keyword, then a key or an index. -/
def descend (ctx : Context) (keyword : String) (segment : Segment) : Context :=
  (ctx.child (.key keyword)).child segment

def withoutDefault (ctx : Context) : Context := { ctx with suppressDefault := true }

def defaultsEnabled (ctx : Context) : Bool := ctx.applyDefaults && !ctx.suppressDefault

end Context
end Compile
end Valgen
