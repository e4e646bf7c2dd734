/-!
# CallChain — `z.string().min(1).optional()`

A chain of method calls on a base.  The base is a call itself, or an expression without arguments; `build` writes the
chain as text.
-/
namespace Valgen

/-- **A call**: a method and its arguments, already written out. -/
structure Call where
  method : String
  args : List String
deriving DecidableEq, Repr

namespace Call

def argsText (args : List String) : String := "(" ++ ", ".intercalate args ++ ")"

def text (call : Call) : String := "." ++ call.method ++ argsText call.args

end Call

structure CallChain where
  base : String
  /-- The arguments of the base, if it is a call. -/
  args : Option (List String)
  calls : List Call
deriving DecidableEq, Repr

namespace CallChain

/-- **A chain that starts with a call of a function.** -/
def ofFunction (base : String) (args : List String) : CallChain := ⟨base, some args, []⟩

def ofExpression (base : String) : CallChain := ⟨base, none, []⟩

/-- **The chain with an argument more to its base**, which becomes a call if it was none. -/
def addArg (chain : CallChain) (arg : String) : CallChain := { chain with args := some (chain.args.getD [] ++ [arg]) }

/-- **The chain with an argument more**, if there is one. -/
def addArg? (chain : CallChain) (arg : Option String) : CallChain := arg.elim chain chain.addArg

def add (chain : CallChain) (call : Call) : CallChain := { chain with calls := chain.calls ++ [call] }

/-- **The chain with a call more of one argument**, if there is one. -/
def add? (chain : CallChain) (method : String) (arg : Option String) : CallChain :=
  arg.elim chain (fun a => chain.add ⟨method, [a]⟩)

def baseText (chain : CallChain) : String := chain.args.elim chain.base (fun args => chain.base ++ Call.argsText args)

def build (chain : CallChain) : String := chain.calls.foldl (fun acc call => acc ++ call.text) chain.baseText

theorem build_add (chain : CallChain) (call : Call) : (chain.add call).build = chain.build ++ call.text := by
  simp [build, add, baseText]

end CallChain
end Valgen
