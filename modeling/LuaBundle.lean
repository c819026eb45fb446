import LuaBundle.Bundle.Assembly
import LuaBundle.Bundle.Bundle
import LuaBundle.Bundle.Discovery
import LuaBundle.Bundle.Loader
import LuaBundle.Bundle.RequireGraph
import LuaBundle.Command.Arguments
import LuaBundle.Command.Program
import LuaBundle.Decimal.Positional
import LuaBundle.Decimal.Reading
import LuaBundle.Decimal.Shortest
import LuaBundle.FileSystem
import LuaBundle.Json
import LuaBundle.Lua.Chunk
import LuaBundle.Lua.Fault
import LuaBundle.Lua.Grammar
import LuaBundle.Lua.Layout
import LuaBundle.Lua.Lexeme
import LuaBundle.Lua.Literal
import LuaBundle.Lua.Numeral
import LuaBundle.Lua.Page
import LuaBundle.Lua.Parser
import LuaBundle.Lua.Scope
import LuaBundle.Lua.Token
import LuaBundle.Lua.Tour
import LuaBundle.Lua.Tree
import LuaBundle.Lua.Walk
import LuaBundle.Main
import LuaBundle.Merge
import LuaBundle.Path
import LuaBundle.Project.Manifest
import LuaBundle.Project.Resolver
import LuaBundle.Project.Target
import LuaBundle.Project.Trouble
import LuaBundle.Proofs.Bundle.Absent
import LuaBundle.Proofs.Bundle.Apart
import LuaBundle.Proofs.Bundle.Assembled
import LuaBundle.Proofs.Bundle.Builds
import LuaBundle.Proofs.Bundle.Captures
import LuaBundle.Proofs.Bundle.Carried
import LuaBundle.Proofs.Bundle.Charts
import LuaBundle.Proofs.Bundle.Classes
import LuaBundle.Proofs.Bundle.Comment
import LuaBundle.Proofs.Bundle.Cycles
import LuaBundle.Proofs.Bundle.Edges
import LuaBundle.Proofs.Bundle.Exact
import LuaBundle.Proofs.Bundle.Faults
import LuaBundle.Proofs.Bundle.Graph
import LuaBundle.Proofs.Bundle.Growth
import LuaBundle.Proofs.Bundle.Histories
import LuaBundle.Proofs.Bundle.Itinerary
import LuaBundle.Proofs.Bundle.Links
import LuaBundle.Proofs.Bundle.Literals
import LuaBundle.Proofs.Bundle.Modules
import LuaBundle.Proofs.Bundle.Moved
import LuaBundle.Proofs.Bundle.Nesting
import LuaBundle.Proofs.Bundle.Nodes
import LuaBundle.Proofs.Bundle.Origins
import LuaBundle.Proofs.Bundle.Placeless
import LuaBundle.Proofs.Bundle.Preorder
import LuaBundle.Proofs.Bundle.Reach
import LuaBundle.Proofs.Bundle.Reorder
import LuaBundle.Proofs.Bundle.Rewritten
import LuaBundle.Proofs.Bundle.Scoped
import LuaBundle.Proofs.Bundle.Spliced
import LuaBundle.Proofs.Bundle.StopLines
import LuaBundle.Proofs.Bundle.Stops
import LuaBundle.Proofs.Bundle.Success
import LuaBundle.Proofs.Bundle.Targets
import LuaBundle.Proofs.Bundle.Visits
import LuaBundle.Proofs.Command.AllOrNothing
import LuaBundle.Proofs.FileSystem.Below
import LuaBundle.Proofs.FileSystem.Canonical
import LuaBundle.Proofs.FileSystem.Changes
import LuaBundle.Proofs.FileSystem.Content
import LuaBundle.Proofs.FileSystem.Inner
import LuaBundle.Proofs.FileSystem.LaidOut
import LuaBundle.Proofs.FileSystem.Moved
import LuaBundle.Proofs.FileSystem.Places
import LuaBundle.Proofs.FileSystem.Spellings
import LuaBundle.Proofs.FileSystem.Ways
import LuaBundle.Proofs.Grammar.Blocks
import LuaBundle.Proofs.Grammar.Expressions
import LuaBundle.Proofs.Grammar.FaultOrder
import LuaBundle.Proofs.Grammar.Methods
import LuaBundle.Proofs.Grammar.MovedSources
import LuaBundle.Proofs.Grammar.MovedTokens
import LuaBundle.Proofs.Grammar.Openings
import LuaBundle.Proofs.Grammar.Operators
import LuaBundle.Proofs.Grammar.Outcomes
import LuaBundle.Proofs.Grammar.Plain
import LuaBundle.Proofs.Grammar.Reads
import LuaBundle.Proofs.Grammar.Rereads
import LuaBundle.Proofs.Grammar.Spends
import LuaBundle.Proofs.Grammar.Standing
import LuaBundle.Proofs.Grammar.Starts
import LuaBundle.Proofs.Grammar.Statements
import LuaBundle.Proofs.Grammar.Values
import LuaBundle.Proofs.Grammar.Yields
import LuaBundle.Proofs.Lexing.Cut
import LuaBundle.Proofs.Lexing.Spelling
import LuaBundle.Proofs.Literal.Encodings
import LuaBundle.Proofs.Literal.Escapes
import LuaBundle.Proofs.Literal.Hexadecimal
import LuaBundle.Proofs.Literal.LongBrackets
import LuaBundle.Proofs.Literal.Numerals
import LuaBundle.Proofs.Literal.Quoted
import LuaBundle.Proofs.Literal.Sequences
import LuaBundle.Proofs.Merge
import LuaBundle.Proofs.Printing.Arithmetic
import LuaBundle.Proofs.Printing.Endings
import LuaBundle.Proofs.Printing.Flow
import LuaBundle.Proofs.Printing.Pages
import LuaBundle.Proofs.Printing.Parentheses
import LuaBundle.Proofs.Printing.Readable
import LuaBundle.Proofs.Printing.Returning
import LuaBundle.Proofs.Printing.RoundTrip
import LuaBundle.Proofs.Printing.Statements
import LuaBundle.Proofs.Printing.Trail
import LuaBundle.Proofs.Printing.WrittenNames
import LuaBundle.Proofs.Project.Apart
import LuaBundle.Proofs.Project.Exchange
import LuaBundle.Proofs.Project.Files
import LuaBundle.Proofs.Project.Inside
import LuaBundle.Proofs.Project.Moved
import LuaBundle.Proofs.Project.Scripts
import LuaBundle.Proofs.Project.Search
import LuaBundle.Proofs.Project.Small
import LuaBundle.Proofs.Project.Stateless
import LuaBundle.Proofs.Runtime.Answers
import LuaBundle.Proofs.Runtime.Ends
import LuaBundle.Proofs.Runtime.Evaluation
import LuaBundle.Proofs.Runtime.Once
import LuaBundle.Proofs.Settings.Effective
import LuaBundle.Proofs.Settings.Joined
import LuaBundle.Proofs.Settings.Layers
import LuaBundle.Proofs.Text.Bytes
import LuaBundle.Proofs.Text.Decoding
import LuaBundle.Proofs.Text.Slices
import LuaBundle.Proofs.Tree.Elements
import LuaBundle.Proofs.Tree.Flat
import LuaBundle.Proofs.Tree.Halting
import LuaBundle.Proofs.Tree.Identifiers
import LuaBundle.Proofs.Tree.Marks
import LuaBundle.Proofs.Tree.Names
import LuaBundle.Proofs.Tree.Rational
import LuaBundle.Proofs.Tree.Relined
import LuaBundle.Proofs.Tree.Renamed
import LuaBundle.Proofs.Tree.Sound
import LuaBundle.Proofs.Tree.Strings
import LuaBundle.Proofs.Tree.Stripped
import LuaBundle.Proofs.Tree.Tours
import LuaBundle.Proofs.Tree.Unlined
import LuaBundle.Proofs.Tree.Visible
import LuaBundle.Proofs.Tree.WellFormed
import LuaBundle.Settings.Config
import LuaBundle.Settings.Load
import LuaBundle.Settings.Machine
import LuaBundle.Settings.Places
import LuaBundle.Text.Characters
import LuaBundle.Text.Utf8
import LuaBundle.Toml
