import LuaBundle.Lua.Tree

/-!
# The loader

A bundle declares three names of its own: a table with a function for every module, a table
of results, and the loader, which runs the function of a module on first use and keeps the
result.  A module without a result counts as `true`.
-/

namespace LuaBundle

open Lua

/-!
## Names

The names of a bundle share a start, and no script may use a name with that start.
-/

/-- What the names of a bundle start with.  No script may use such a name. -/
def reservedStart : String :=
  "__luapack_"

def loaderName : String :=
  "__luapack_require"

def packagesName : String :=
  "__luapack_packages"

def cacheName : String :=
  "__luapack_cache"

/-!
## Building trees

What is built has no source: its lines are zero, and its local names are marked as such.  The
function of a module takes `...` and nothing else, so the statements of a script may use it.
-/

def localRef (text : String) : Expr :=
  .name ⟨text, true⟩

def numberExpr (n : Nat) : Expr :=
  .number (.written (toString n)) 0

def callExpr (base : Expr) (arguments : List Expr) : Expr :=
  .call base (.list arguments) false 0

def loadCall (id : Nat) : Expr :=
  callExpr (localRef loaderName) [numberExpr id]

def localStat (name : String) (values : List Expr) : Stat :=
  .locals [{ name := ⟨name, true⟩ }] values

def factory (body : List Stat) : Expr :=
  .function [.vararg false 0] body

def factoryField (id : Nat) (body : List Stat) : Field :=
  .keyed (numberExpr id) (factory body)

/-!
## The loader

The function looks for a kept result under the number of the module, calls the function of the
module if there is none, and keeps what that returns.
-/

/-- The place of the result of the module at hand. -/
def resultSlot : Expr :=
  .index (localRef cacheName) (localRef "id")

def whenStat (condition : Expr) (body : List Stat) : Stat :=
  .choice [.first condition body]

def loaderBody : List Stat :=
  [localStat "cached" [resultSlot],
    whenStat (.binary .ne (localRef "cached") .nil) [.ret [localRef "cached"]],
    localStat "loaded" [callExpr (.index (localRef packagesName) (localRef "id")) []],
    whenStat (.binary .eq (localRef "loaded") .nil)
      [.assign [localRef "loaded"] [.boolean true]],
    .assign [resultSlot] [localRef "loaded"],
    .ret [localRef "loaded"]]

def loader : Expr :=
  .function [localRef "id"] loaderBody

end LuaBundle
