import Splice.Bindings
import Splice.CommandLine.Arguments
import Splice.CommandLine.Globals
import Splice.CommandLine.Session
import Splice.CommandLine.Word
import Splice.Config.Basic
import Splice.Config.Hook
import Splice.Config.Load
import Splice.Config.Options
import Splice.Config.Problem
import Splice.Delimiters
import Splice.Directive
import Splice.Encoding.Base64
import Splice.Encoding.Basic
import Splice.Encoding.Codec
import Splice.Encoding.Utf8
import Splice.Expansion
import Splice.Failure
import Splice.Glob.Basic
import Splice.Glob.Wildcard
import Splice.Json.Basic
import Splice.Json.Parser
import Splice.Json.Printer
import Splice.Main
import Splice.Mustache.Escape
import Splice.Mustache.Load
import Splice.Mustache.Render
import Splice.Mustache.Tag
import Splice.Mustache.Template
import Splice.Number.Double
import Splice.Number.Shortest
import Splice.Path.Basic
import Splice.Placeholder
import Splice.Placeholder.Resolver
import Splice.Proofs.Directive.Division
import Splice.Proofs.Directive.Grammar
import Splice.Proofs.Directive.Literal
import Splice.Proofs.Directive.RoundTrip
import Splice.Proofs.Directive.Search
import Splice.Proofs.Encoding.Failing
import Splice.Proofs.Expansion.Bound
import Splice.Proofs.Expansion.Chain
import Splice.Proofs.Expansion.Docroot
import Splice.Proofs.Expansion.Entry
import Splice.Proofs.Expansion.Failing
import Splice.Proofs.Expansion.Fuel
import Splice.Proofs.Expansion.Inert
import Splice.Proofs.Expansion.Lockstep
import Splice.Proofs.Expansion.Scans
import Splice.Proofs.Expansion.Scoping
import Splice.Proofs.Expansion.Spelling
import Splice.Proofs.Expansion.Splicing
import Splice.Proofs.Expansion.Termination
import Splice.Proofs.Fuel
import Splice.Proofs.Glob.Lists
import Splice.Proofs.Glob.Literal
import Splice.Proofs.Glob.Matching
import Splice.Proofs.Json.Numerals
import Splice.Proofs.Json.Strings
import Splice.Proofs.Json.Values
import Splice.Proofs.Mustache.Loading
import Splice.Proofs.Mustache.Rendering
import Splice.Proofs.Path.Docroot
import Splice.Proofs.Path.Names
import Splice.Proofs.Path.Shortest
import Splice.Proofs.Placeholder.Replacing
import Splice.Proofs.Placeholder.Shadowing
import Splice.Proofs.Runner.Aborting
import Splice.Proofs.Runner.History
import Splice.Proofs.Tree.Closed
import Splice.Proofs.Tree.Files
import Splice.Proofs.Tree.Making
import Splice.Proofs.Tree.Paths
import Splice.Proofs.Tree.Places
import Splice.Proofs.Tree.Ways
import Splice.Proofs.Tree.Writing
import Splice.Runner
import Splice.Text.Basic
import Splice.Text.Blank
import Splice.Text.Digit
import Splice.Text.Pattern
import Splice.Text.Position
import Splice.Text.Printable
import Splice.Text.Quoted
import Splice.Text.Reference
import Splice.Text.Segments
import Splice.Tree.Basic
import Splice.Tree.Change
import Splice.Tree.File
import Splice.Value.Basic
import Splice.Value.Moment
import Splice.Value.Show
import Splice.Yaml.Block
import Splice.Yaml.Cursor
import Splice.Yaml.Document
import Splice.Yaml.Error
import Splice.Yaml.Node
import Splice.Yaml.Number
import Splice.Yaml.Plain
import Splice.Yaml.Property
import Splice.Yaml.Quoted
import Splice.Yaml.Tag
import Splice.Yaml.Timestamp
import Splice.Yaml.Token
import Splice.Proofs.CommandLine.Exits
import Splice.Proofs.Encoding.Utf8
import Splice.Proofs.Runner.Passing
import Splice.Proofs.CommandLine.Reading
import Splice.Proofs.Config.Loading
import Splice.Proofs.Glob.Existing
import Splice.Proofs.Runner.Delivering
import Splice.Proofs.CommandLine.Agreement
import Splice.Proofs.Tree.Apart
import Splice.Proofs.Glob.Steady
import Splice.Proofs.Glob.Growing
import Splice.Proofs.Expansion.Asking
import Splice.Proofs.Expansion.Remembering
import Splice.Proofs.Runner.Remembering
import Splice.Proofs.Tree.Writes
import Splice.Proofs.Runner.Frame
import Splice.Proofs.Runner.Order
import Splice.Proofs.Expansion.Whereabouts
import Splice.Proofs.Mustache.Calling
import Splice.Proofs.Expansion.Substituting
import Splice.Proofs.Path.Climbing
import Splice.Proofs.Runner.Changing
import Splice.Proofs.Runner.Containing
import Splice.Proofs.Yaml.Scanning
import Splice.Proofs.Yaml.Reading
import Splice.Proofs.Yaml.Constructing
import Splice.Proofs.Yaml.Distinct
import Splice.Proofs.Config.Reading
import Splice.Proofs.Config.Collecting
import Splice.Proofs.Config.Given
import Splice.Proofs.Config.Accepting
import Splice.Proofs.Tree.Listing
import Splice.Proofs.Glob.Listing
import Splice.Proofs.Expansion.Joining
import Splice.Proofs.Expansion.Listing
import Splice.Proofs.Glob.Distinct
import Splice.Proofs.Glob.Divisions
import Splice.Proofs.Text.Digits
import Splice.Proofs.Value.Json
import Splice.Proofs.Json.Writing
import Splice.Proofs.Json.Carrying
import Splice.Proofs.Placeholder.Cutting
import Splice.Proofs.Placeholder.Remembering
import Splice.Proofs.Placeholder.Alone
import Splice.Proofs.Placeholder.Referring
import Splice.Proofs.Bindings
import Splice.Proofs.Mustache.Escaping
import Splice.Proofs.Tree.ReadingBack
import Splice.Proofs.CommandLine.Layering
