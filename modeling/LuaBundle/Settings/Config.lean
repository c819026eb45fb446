import LuaBundle.Merge
import LuaBundle.Path

/-!
# Configuration

How a bundle is made, and the layers that may each give a part of it.  Of two layers the
first wins, and its directories stand in front.
-/

namespace LuaBundle

structure Config where
  /-- Print tight instead of spread out. -/
  minify : Bool := true
  /-- Put a comment in front that names the entry. -/
  metadata : Bool := false
  /-- What the names of script files end in, after a point. -/
  extension : String := "lua"
  /-- The directories with packages, in the order in which they are searched. -/
  dependencyDirs : List Path := [⟨"node_modules"⟩]
deriving Repr

structure Layer where
  minify : Option Bool := none
  metadata : Option Bool := none
  extension : Option String := none
  dependencyDirs : Option (List Path) := none
deriving Repr

def Layer.merge (upper lower : Layer) : Layer where
  minify := LuaBundle.merge upper.minify lower.minify
  metadata := LuaBundle.merge upper.metadata lower.metadata
  extension := LuaBundle.merge upper.extension lower.extension
  dependencyDirs := mergeLists upper.dependencyDirs lower.dependencyDirs

def Layer.applyTo (layer : Layer) (config : Config) : Config where
  minify := layer.minify.getD config.minify
  metadata := layer.metadata.getD config.metadata
  extension := layer.extension.getD config.extension
  dependencyDirs := layer.dependencyDirs.getD config.dependencyDirs

end LuaBundle
