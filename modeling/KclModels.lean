import KclModels.Assoc
import KclModels.Build.File
import KclModels.Build.Frame
import KclModels.Build.Schema
import KclModels.Build.Session
import KclModels.Canonical
import KclModels.Cli.Arguments
import KclModels.Cli.Color
import KclModels.Cli.Flag
import KclModels.Cli.Folder
import KclModels.Cli.Generate
import KclModels.Cli.Listing
import KclModels.Cli.Program
import KclModels.Cli.Script
import KclModels.Cli.Table
import KclModels.Crd
import KclModels.Decimal.Double
import KclModels.Decimal.Layout
import KclModels.Decimal.Shortest
import KclModels.Dependencies
import KclModels.Document.Decode
import KclModels.Document.Json
import KclModels.Document.Node
import KclModels.Document.Printer
import KclModels.Document.Scalar
import KclModels.Document.Value
import KclModels.Format
import KclModels.Fresh
import KclModels.Imports
import KclModels.Kcl.Check
import KclModels.Kcl.Declaration
import KclModels.Kcl.Doc
import KclModels.Kcl.File
import KclModels.Kcl.Layout
import KclModels.Kcl.Literal
import KclModels.Kcl.TypeText
import KclModels.Load
import KclModels.Main
import KclModels.Model.Basic
import KclModels.Model.Constraints
import KclModels.Model.TypeInfo
import KclModels.Naming.Identifier
import KclModels.Naming.Word
import KclModels.Options
import KclModels.Polymorphism
import KclModels.Proofs.Assoc.Sorted
import KclModels.Proofs.Build.Agreement
import KclModels.Proofs.Build.Bases
import KclModels.Proofs.Build.Bounding
import KclModels.Proofs.Build.Cases
import KclModels.Proofs.Build.Counterparts
import KclModels.Proofs.Build.Depicting
import KclModels.Proofs.Build.Descent
import KclModels.Proofs.Build.Ending
import KclModels.Proofs.Build.Errors
import KclModels.Proofs.Build.Escaping
import KclModels.Proofs.Build.Examining
import KclModels.Proofs.Build.Extracts
import KclModels.Proofs.Build.FileCases
import KclModels.Proofs.Build.FileLinks
import KclModels.Proofs.Build.FileMirroring
import KclModels.Proofs.Build.FileStanding
import KclModels.Proofs.Build.Flattening
import KclModels.Proofs.Build.Inheriting
import KclModels.Proofs.Build.Keeping
import KclModels.Proofs.Build.Lifting
import KclModels.Proofs.Build.Linking
import KclModels.Proofs.Build.Links
import KclModels.Proofs.Build.Metadata
import KclModels.Proofs.Build.Mirroring
import KclModels.Proofs.Build.Nesting
import KclModels.Proofs.Build.Origins
import KclModels.Proofs.Build.Outcome
import KclModels.Proofs.Build.Outline
import KclModels.Proofs.Build.Persisting
import KclModels.Proofs.Build.Properties
import KclModels.Proofs.Build.Referring
import KclModels.Proofs.Build.Requiring
import KclModels.Proofs.Build.SharingOut
import KclModels.Proofs.Build.Sites
import KclModels.Proofs.Build.Sources
import KclModels.Proofs.Build.Standing
import KclModels.Proofs.Build.Strictness
import KclModels.Proofs.Build.Translating
import KclModels.Proofs.Build.Tuples
import KclModels.Proofs.Build.Worlds
import KclModels.Proofs.Canonical.Accepting
import KclModels.Proofs.Canonical.Loops
import KclModels.Proofs.Canonical.Output
import KclModels.Proofs.Canonical.Relocating
import KclModels.Proofs.Canonical.Settling
import KclModels.Proofs.Cli.Writing
import KclModels.Proofs.Crd.CommonFields
import KclModels.Proofs.Crd.Versions
import KclModels.Proofs.Decimal.Shortest
import KclModels.Proofs.Decimal.Text
import KclModels.Proofs.Dependencies.Closure
import KclModels.Proofs.Dependencies.Groups
import KclModels.Proofs.Document.Sorted
import KclModels.Proofs.Imports.Aliases
import KclModels.Proofs.Imports.Collecting
import KclModels.Proofs.Imports.Once
import KclModels.Proofs.Imports.Rendered
import KclModels.Proofs.Imports.Table
import KclModels.Proofs.Imports.Types
import KclModels.Proofs.Imports.Visits
import KclModels.Proofs.Kcl.AttributeNames
import KclModels.Proofs.Kcl.Conditions
import KclModels.Proofs.Kcl.Documentation
import KclModels.Proofs.Kcl.Layout
import KclModels.Proofs.Kcl.Literals
import KclModels.Proofs.Kcl.Places
import KclModels.Proofs.Kcl.Quoted
import KclModels.Proofs.Kcl.Spelled
import KclModels.Proofs.Kcl.Strictness
import KclModels.Proofs.Model.Ordered
import KclModels.Proofs.Model.Positions
import KclModels.Proofs.Model.Strictness
import KclModels.Proofs.Naming.Pascal
import KclModels.Proofs.Naming.Stem
import KclModels.Proofs.Polymorphism.Index
import KclModels.Proofs.Reference.Written
import KclModels.Proofs.Registry.Agreement
import KclModels.Proofs.Registry.Grounded
import KclModels.Proofs.Registry.Growth
import KclModels.Proofs.Registry.Renaming
import KclModels.Proofs.Registry.Walks
import KclModels.Proofs.Resolve.Calls
import KclModels.Proofs.Resolve.Cases
import KclModels.Proofs.Resolve.Categories
import KclModels.Proofs.Resolve.Errors
import KclModels.Proofs.Resolve.Kinds
import KclModels.Proofs.Resolve.Records
import KclModels.Proofs.Resolve.References
import KclModels.Proofs.Resolve.Renaming
import KclModels.Proofs.Run.Accounted
import KclModels.Proofs.Run.AttributeLines
import KclModels.Proofs.Run.Categories
import KclModels.Proofs.Run.Checks
import KclModels.Proofs.Run.Closed
import KclModels.Proofs.Run.Composition
import KclModels.Proofs.Run.Counting
import KclModels.Proofs.Run.Declarations
import KclModels.Proofs.Run.Errors
import KclModels.Proofs.Run.Escaping
import KclModels.Proofs.Run.Files
import KclModels.Proofs.Run.ImportNames
import KclModels.Proofs.Run.ImportPaths
import KclModels.Proofs.Run.Isolation
import KclModels.Proofs.Run.Ordering
import KclModels.Proofs.Run.Paths
import KclModels.Proofs.Run.Pinning
import KclModels.Proofs.Run.PropertyMetadata
import KclModels.Proofs.Run.Referring
import KclModels.Proofs.Run.Requirements
import KclModels.Proofs.Run.SchemaNames
import KclModels.Proofs.Run.Strictness
import KclModels.Proofs.Run.Subtypes
import KclModels.Proofs.Run.Translation
import KclModels.Proofs.Run.Transparency
import KclModels.Proofs.Run.Tuples
import KclModels.Proofs.Run.TypeNames
import KclModels.Proofs.Schema.Composition
import KclModels.Proofs.Schema.Examined
import KclModels.Proofs.Schema.Keywords
import KclModels.Proofs.Schema.References
import KclModels.Proofs.Schema.Renaming
import KclModels.Proofs.Schema.Restated
import KclModels.Proofs.Schema.Size
import KclModels.Proofs.Schema.Within
import KclModels.Proofs.Text.Cut
import KclModels.Reference
import KclModels.Registry
import KclModels.Resolve
import KclModels.Run
import KclModels.Schema.Basic
import KclModels.Schema.Decode
import KclModels.Schema.Hints
import KclModels.Shape
import KclModels.Sorting
import KclModels.Statistics
import KclModels.Swagger
import KclModels.Text.Ascii
import KclModels.Text.AsciiTable
import KclModels.Text.Blank
import KclModels.Text.Capital
import KclModels.Text.Cut
import KclModels.Text.Escaped
import KclModels.Text.Width
import KclModels.Warning
import KclModels.Yaml.Block
import KclModels.Yaml.Cursor
import KclModels.Yaml.Documents
import KclModels.Yaml.Lexer
import KclModels.Yaml.Plain
import KclModels.Yaml.Quoted
import KclModels.Yaml.Tag
import KclModels.Yaml.Token
import KclModels.Yaml.Tree
